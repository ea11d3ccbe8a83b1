import RtThread.Dfs.Descriptors
import RtThread.Lib.Runs

/-!
# The descriptor table

Which entries of `fd_table` are in use, in every sequence of calls.

* `Entries`: the entries that are in use have one reference, the others are cleared.
* `Entries.posixOpen`, `Entries.opendir`, `Entries.posixMkdir`, `Entries.posixClose`,
  `Entries.closedir`: what the calls do to the entries that are in use.
* `Entries.withFd`: looking a descriptor up and putting it back changes none.
* `descriptor_table`: so in every sequence of calls the descriptors that have been opened
  and not closed are the entries with one reference.
-/

namespace RtThread.Dfs

open Runs Function Option Prod Finset Int

namespace Fds

/-! ## What is in the table -/

variable {c : Config} {s s' : Fds} {o : Finset ℤ} {i : ℕ} {fd : ℤ} {e : Env}

@[simp] theorem fdTable_modify_self (s : Fds) (i : ℕ) (f : DfsFd → DfsFd) :
    (s.modify i f).fdTable i = f (s.fdTable i) :=
  update_self ..

variable {j : ℕ}

theorem fdTable_modify_of_ne (s : Fds) (f : DfsFd → DfsFd) (hne : j ≠ i) :
    (s.modify i f).fdTable j = s.fdTable j :=
  update_of_ne hne ..

theorem modify_modify (s : Fds) (i : ℕ) (f g : DfsFd → DfsFd) :
    (s.modify i f).modify i g = s.modify i fun d => g (f d) := by
  unfold modify
  simp only [update_self, update_idem]

theorem modify_congr {f g : DfsFd → DfsFd} (h : f (s.fdTable i) = g (s.fdTable i)) :
    s.modify i f = s.modify i g := by
  rw [modify, h, modify]

/-- The entries `o` are in use, with one reference each, and all others are cleared. -/
structure Entries (c : Config) (s : Fds) (o : Finset ℤ) : Prop where
  range : ∀ fd ∈ o, (c.base : ℤ) ≤ fd ∧ fd < c.fdMax + c.base
  used : ∀ i : ℕ, (i : ℤ) ∈ o →
    (s.fdTable i).refCount = 1 ∧ (s.fdTable i).magic = dfsFdMagic ∧ (s.fdTable i).fs.isSome
  free : ∀ i : ℕ, (i : ℤ) ∉ o → s.fdTable i = .cleared

theorem entries_dfsInit : Entries c dfsInit ∅ where
  range fd hfd := absurd hfd (notMem_empty fd)
  used _ hi := absurd hi (notMem_empty _)
  free _ _ := rfl

theorem Entries.congr (h : Entries c s o) (heq : s'.fdTable = s.fdTable) : Entries c s' o :=
  ⟨h.range, by rw [heq]; exact h.used, by rw [heq]; exact h.free⟩

theorem Entries.refCount_eq (h : Entries c s o) (i : ℕ) :
    (s.fdTable i).refCount = if (i : ℤ) ∈ o then 1 else 0 := by
  split_ifs with hi
  · exact (h.used i hi).1
  · rw [h.free i hi]
    rfl

variable {d : DfsFd} {fs : Option ℕ} {α : Type}

theorem findEmpty_some {rounds idx : ℕ} (h : findEmpty s.fdTable rounds idx = some j) :
    idx ≤ j ∧ j < idx + rounds ∧ (s.fdTable j).refCount ≤ 0 := by
  induction rounds generalizing idx with
  | zero => cases h
  | succ rounds ih =>
    rw [findEmpty] at h
    split_ifs at h with href
    · have := ih h
      exact ⟨by omega, by omega, this.2.2⟩
    · obtain rfl := some.inj h
      exact ⟨le_rfl, by omega, not_lt.mp href⟩

section

variable (h : Entries c s o) {s₁ : Fds}
include h

/-- The entry `i` is taken into use. -/
theorem Entries.insert (hrange : (c.base : ℤ) ≤ i ∧ (i : ℤ) < c.fdMax + c.base)
    (hd : d.refCount = 1 ∧ d.magic = dfsFdMagic ∧ d.fs.isSome) :
    Entries c (s.modify i fun _ => d) (insert (i : ℤ) o) where
  range fd hfd := by
    rcases mem_insert.mp hfd with rfl | hfd
    · exact hrange
    · exact h.range fd hfd
  used j hj := by
    rcases eq_or_ne j i with rfl | hne
    · rw [fdTable_modify_self]
      exact hd
    · have hmem : (j : ℤ) ∈ o :=
        (mem_insert.mp hj).resolve_left fun heq => hne (ofNat_inj.mp heq)
      rw [fdTable_modify_of_ne _ _ hne]
      exact h.used j hmem
  free j hj := by
    rw [mem_insert, not_or] at hj
    have hne : j ≠ i := fun heq => hj.1 (by rw [heq])
    rw [fdTable_modify_of_ne _ _ hne]
    exact h.free j hj.2

/-- The entry `i` is cleared. -/
theorem Entries.erase (i : ℕ) : Entries c (s.modify i fun _ => .cleared) (o.erase (i : ℤ)) where
  range fd hfd := h.range fd (mem_of_mem_erase hfd)
  used j hj := by
    have hne : j ≠ i := fun heq => ne_of_mem_erase hj (by rw [heq])
    rw [fdTable_modify_of_ne _ _ hne]
    exact h.used j (mem_of_mem_erase hj)
  free j hj := by
    rcases eq_or_ne j i with rfl | hne
    · rw [fdTable_modify_self]
    · rw [fdTable_modify_of_ne _ _ hne]
      refine h.free j fun hmem => hj (mem_erase.mpr ⟨?_, hmem⟩)
      exact fun heq => hne (ofNat_inj.mp heq)

/-- The entry `i` keeps its reference. -/
theorem Entries.keep (hi : (i : ℤ) ∈ o) (file : FileData) :
    Entries c (s.modify i fun _ => { s.fdTable i with refCount := 1, file }) o := by
  obtain ⟨-, hmagic, hfs⟩ := h.used i hi
  have hins := h.insert (d := { s.fdTable i with refCount := 1, file }) (h.range _ hi)
    ⟨rfl, hmagic, hfs⟩
  rwa [insert_eq_of_mem hi] at hins

/-- The reference of `fd_get` and the one of `fd_new`. -/
def newFd : DfsFd := { DfsFd.cleared with refCount := 2, magic := dfsFdMagic }

/-- `fd_new` finds an entry that is not in use, and `fd_get` finds it again. -/
theorem Entries.fdNew_fdGet (hnew : s.fdNew c = some (j, s₁)) :
    (j : ℤ) ∉ o ∧ ((c.base : ℤ) ≤ j ∧ (j : ℤ) < c.fdMax + c.base) ∧
      s₁.fdGet c j = some (j, s.modify j fun _ => newFd) := by
  obtain ⟨j', hfind, heq⟩ := map_eq_some_iff.mp hnew
  obtain ⟨rfl, rfl⟩ := Prod.mk.inj heq
  obtain ⟨hlo, hhi, href⟩ := findEmpty_some hfind
  have hj : (j' : ℤ) ∉ o := by
    intro hmem
    have := (h.used j' hmem).1
    omega
  refine ⟨hj, ⟨by omega, by omega⟩, ?_⟩
  rw [fdGet, if_neg (by omega), toNat_natCast, if_neg (by simp), modify_modify]
  exact congrArg (fun s => some (j', s)) (modify_congr (by rw [h.free j' hj]; rfl))

/-- A descriptor that is found is in use. -/
theorem Entries.fdGet_some (hget : s.fdGet c fd = some (j, s₁)) :
    (j : ℤ) = fd ∧ fd ∈ o ∧ s₁ = s.modify j fun _ => { s.fdTable j with refCount := 2 } := by
  unfold fdGet at hget
  split_ifs at hget with hrange hmagic
  obtain ⟨rfl, rfl⟩ := Prod.mk.inj (some.inj hget)
  have hcast : ((fd.toNat : ℕ) : ℤ) = fd := by omega
  have hmem : fd ∈ o := by
    by_contra hfd
    rw [h.free fd.toNat (by rwa [hcast])] at hmagic
    exact absurd hmagic (by decide)
  refine ⟨hcast, hmem, ?_⟩
  have href := (h.used fd.toNat (by rwa [hcast])).1
  exact modify_congr (by rw [href]; rfl)

theorem Entries.fdGet_none (hget : s.fdGet c fd = none) : fd ∉ o := by
  intro hmem
  have hrange := h.range fd hmem
  have hcast : ((fd.toNat : ℕ) : ℤ) = fd := by omega
  have hmagic := (h.used fd.toNat (by rwa [hcast])).2.1
  rw [fdGet, if_neg (by omega), if_neg (not_not.mpr hmagic)] at hget
  cases hget

end

theorem fdPut_two (hd : d.refCount = 2) :
    (s.modify i fun _ => d).fdPut i = s.modify i fun _ => { d with refCount := 1 } := by
  rw [fdPut, modify_modify]
  exact modify_congr (by simp [hd])

theorem fdPut_one (hd : d.refCount = 1) :
    (s.modify i fun _ => d).fdPut i = s.modify i fun _ => .cleared := by
  rw [fdPut, modify_modify]
  exact modify_congr (by simp [hd])

theorem fdPut_fdPut (hd : d.refCount = 2) :
    ((s.modify i fun _ => d).fdPut i).fdPut i = s.modify i fun _ => .cleared := by
  rw [fdPut_two hd, fdPut_one rfl]

/-- A new entry from which both references are taken is as it was. -/
theorem Entries.fdPut_fdPut_new (h : Entries c s o) (hi : (i : ℤ) ∉ o) (hd : d.refCount = 2) :
    (((s.modify i fun _ => d).fdPut i).fdPut i).fdTable = s.fdTable := by
  rw [fdPut_fdPut hd, modify, ← h.free i hi, update_eq_self]

/-- A new entry is in use once the reference of `fd_get` is put back. -/
theorem Entries.fdPut_new (h : Entries c s o)
    (hrange : (c.base : ℤ) ≤ i ∧ (i : ℤ) < c.fdMax + c.base) (hd : d.refCount = 2)
    (hmagic : d.magic = dfsFdMagic) (hfs : d.fs.isSome) :
    Entries c ((s.modify i fun _ => d).fdPut i) (Insert.insert (i : ℤ) o) := by
  rw [fdPut_two hd]
  exact h.insert hrange ⟨rfl, hmagic, hfs⟩

/-! ## The calls -/

/-- A descriptor that has been opened is on a file system. -/
theorem dfsFileOpen_isSome {flags : ℕ} {file : FileData} {r : ℤ × Option ℕ × FileData}
    (hr : dfsFileOpen e flags fs file = r) (h : 0 ≤ r.1) : r.2.1.isSome := by
  subst hr
  unfold dfsFileOpen at h ⊢
  cases hpath : e.fullpath with
  | none => simp [hpath] at h
  | some fullpath =>
    cases hfs : dfsFilesystemLookup e.table fullpath with
    | none => simp [hpath, hfs, enoent] at h
    | some fs =>
      cases hop : (e.ops fs).open_ with
      | none => simp [hpath, hfs, hop, enosys] at h
      | some op =>
        simp only [hfs, hop]
        split_ifs <;> rfl

theorem dfsFileClose_some (e : Env) (hfs : fs.isSome) (file : FileData) :
    ∃ result file', dfsFileClose e fs file = some (result, file') := by
  obtain ⟨fs, rfl⟩ := isSome_iff_exists.mp hfs
  exact ⟨_, _, rfl⟩

section

variable (h : Entries c s o) (e : Env)
include h

theorem Entries.posixOpen (flags : ℕ) :
    ∃ r s', s.posixOpen c e flags = some (r, s') ∧
      ((r = -1 ∧ s'.fdTable = s.fdTable) ∨ (0 ≤ r ∧ r ∉ o ∧ Entries c s' (Insert.insert r o))) := by
  unfold Fds.posixOpen
  cases hnew : s.fdNew c with
  | none => exact ⟨_, _, rfl, .inl ⟨rfl, rfl⟩⟩
  | some p =>
    obtain ⟨hfree, hrange, hget⟩ := h.fdNew_fdGet hnew
    simp only [hget, map_some, fdTable_modify_self, modify_modify]
    generalize hr : dfsFileOpen e flags newFd.fs newFd.file = r
    split_ifs with hneg
    · exact ⟨_, _, rfl, .inl ⟨rfl, h.fdPut_fdPut_new hfree rfl⟩⟩
    · refine ⟨_, _, rfl, .inr ⟨by omega, hfree, ?_⟩⟩
      exact h.fdPut_new hrange rfl rfl (dfsFileOpen_isSome hr (not_lt.mp hneg))

theorem Entries.opendir :
    ∃ r s', s.opendir c e = some (r, s') ∧
      ((r = none ∧ s'.fdTable = s.fdTable) ∨
        ∃ d, r = some d ∧ d.fd ∉ o ∧ Entries c s' (Insert.insert d.fd o)) := by
  unfold Fds.opendir
  cases hnew : s.fdNew c with
  | none => exact ⟨_, _, rfl, .inl ⟨rfl, rfl⟩⟩
  | some p =>
    obtain ⟨hfree, hrange, hget⟩ := h.fdNew_fdGet hnew
    simp only [hget, bind_some, fdTable_modify_self, modify_modify]
    generalize hr : dfsFileOpen e oDirectory newFd.fs newFd.file = r
    split_ifs with hpos hmalloc
    · have hfs := dfsFileOpen_isSome hr hpos
      exact ⟨_, _, rfl, .inr ⟨_, rfl, hfree, h.fdPut_new hrange rfl rfl hfs⟩⟩
    · obtain ⟨result, file', hclose⟩ := dfsFileClose_some e (dfsFileOpen_isSome hr hpos) r.2.2
      rw [hclose]
      exact ⟨_, _, rfl, .inl ⟨rfl, h.fdPut_fdPut_new hfree rfl⟩⟩
    · exact ⟨_, _, rfl, .inl ⟨rfl, h.fdPut_fdPut_new hfree rfl⟩⟩

/-- `mkdir` leaves the table as it was. -/
theorem Entries.posixMkdir : ∃ r s', s.posixMkdir c e = some (r, s') ∧ s'.fdTable = s.fdTable := by
  unfold Fds.posixMkdir
  cases hnew : s.fdNew c with
  | none => exact ⟨_, _, rfl, rfl⟩
  | some p =>
    obtain ⟨hfree, hrange, hget⟩ := h.fdNew_fdGet hnew
    simp only [hget, bind_some, fdTable_modify_self, modify_modify]
    generalize hr : dfsFileOpen e (oDirectory ||| oCreat) newFd.fs newFd.file = r
    split_ifs with hneg
    · exact ⟨_, _, rfl, h.fdPut_fdPut_new hfree rfl⟩
    · obtain ⟨result, file', hclose⟩ :=
        dfsFileClose_some e (dfsFileOpen_isSome hr (not_lt.mp hneg)) r.2.2
      rw [hclose]
      exact ⟨_, _, rfl, h.fdPut_fdPut_new hfree rfl⟩

theorem Entries.posixClose (fd : ℤ) :
    ∃ r s', s.posixClose c e fd = some (r, s') ∧
      ((r = 0 ∧ Entries c s' (o.erase fd)) ∨ (r ≠ 0 ∧ Entries c s' o)) := by
  unfold Fds.posixClose
  cases hget : s.fdGet c fd with
  | none => exact ⟨_, _, rfl, .inr ⟨by decide, h.congr rfl⟩⟩
  | some p =>
    obtain ⟨j, s₁⟩ := p
    obtain ⟨rfl, hmem, rfl⟩ := h.fdGet_some hget
    obtain ⟨result, file', hclose⟩ := dfsFileClose_some e (h.used j hmem).2.2 (s.fdTable j).file
    simp only [fdTable_modify_self, hclose, map_some, modify_modify]
    rw [fdPut_two rfl]
    split_ifs with hneg
    · exact ⟨_, _, rfl, .inr ⟨by decide, (h.keep hmem file').congr rfl⟩⟩
    · refine ⟨_, _, rfl, .inl ⟨rfl, ?_⟩⟩
      rw [fdPut_one rfl]
      exact h.erase j

/-- `closedir` clears the entry even if the file system fails. -/
theorem Entries.closedir (d : Dir) :
    ∃ r s', s.closedir c e d = some (r, s') ∧ Entries c s' (o.erase d.fd) := by
  unfold Fds.closedir
  cases hget : s.fdGet c d.fd with
  | none =>
    refine ⟨_, _, rfl, ?_⟩
    rw [erase_eq_of_notMem (h.fdGet_none hget)]
    exact h.congr rfl
  | some p =>
    obtain ⟨j, s₁⟩ := p
    obtain ⟨hj, hmem, rfl⟩ := h.fdGet_some hget
    rw [← hj] at hmem ⊢
    obtain ⟨result, file', hclose⟩ := dfsFileClose_some e (h.used j hmem).2.2 (s.fdTable j).file
    simp only [fdTable_modify_self, hclose, map_some, modify_modify]
    rw [fdPut_fdPut rfl]
    split_ifs
    · exact ⟨_, _, rfl, (h.erase j).congr rfl⟩
    · exact ⟨_, _, rfl, h.erase j⟩

end

/-- Looking a descriptor up and putting it back leaves the counts as they were. -/
theorem Entries.withFd (h : Entries c s o) (fd : ℤ) (bad : α)
    {body : Option ℕ → FileData → Option (α × Option ℤ × FileData)}
    (hbody : ∀ fs file, fs.isSome → (body fs file).isSome) :
    ∃ r s', s.withFd c fd bad body = some (r, s') ∧ Entries c s' o := by
  unfold Fds.withFd
  cases hget : s.fdGet c fd with
  | none => exact ⟨_, _, rfl, h.congr rfl⟩
  | some p =>
    obtain ⟨j, s₁⟩ := p
    obtain ⟨rfl, hmem, rfl⟩ := h.fdGet_some hget
    obtain ⟨⟨result, errno, file'⟩, hres⟩ :=
      isSome_iff_exists.mp (hbody (s.fdTable j).fs (s.fdTable j).file (h.used j hmem).2.2)
    simp only [fdTable_modify_self, hres, map_some, modify_modify]
    rw [fdPut_two rfl]
    refine ⟨_, _, rfl, (h.keep hmem file').congr ?_⟩
    cases errno <;> rfl

/-! ## Sequences of calls -/

/-- The calls, each with what it finds. A `DIR` may be any, also one that has been closed. -/
inductive Call
  | open_ (e : Env) (flags : ℕ)
  | close (e : Env) (fd : ℤ)
  | mkdir (e : Env)
  | opendir (e : Env)
  | closedir (e : Env) (d : Dir)
  | read (e : Env) (fd : ℤ)
  | write (e : Env) (fd : ℤ)
  | lseek (e : Env) (fd offset : ℤ) (whence : Whence)
  | fstat (fd : ℤ)
  | fsync (e : Env) (fd : ℤ)
  | ioctl (e : Env) (fd : ℤ)
  | readdir (e : Env) (d : Dir)
  | telldir (d : Dir)
  | seekdir (e : Env) (d : Dir) (offset : ℤ)
  | rewinddir (e : Env) (d : Dir)

/-- What the calls return; for the streams also what becomes of the `DIR`. -/
inductive Ret
  | int (r : ℤ)
  | dir (d : Option Dir)
  | stat (st : Option (ℕ × ℕ))
  | dirent (r : Dir × Option ℤ)

/-- One call. -/
def step (c : Config) (s : Fds) : Call → Option (Ret × Fds)
  | .open_ e flags => (s.posixOpen c e flags).map (map .int id)
  | .close e fd => (s.posixClose c e fd).map (map .int id)
  | .mkdir e => (s.posixMkdir c e).map (map .int id)
  | .opendir e => (s.opendir c e).map (map .dir id)
  | .closedir e d => (s.closedir c e d).map (map .int id)
  | .read e fd => (s.posixRead c e fd).map (map .int id)
  | .write e fd => (s.posixWrite c e fd).map (map .int id)
  | .lseek e fd offset whence => (s.posixLseek c e fd offset whence).map (map .int id)
  | .fstat fd => (s.fstat c fd).map (map .stat id)
  | .fsync e fd => (s.fsync c e fd).map (map .int id)
  | .ioctl e fd => (s.posixIoctl c e fd).map (map .int id)
  | .readdir e d => (s.readdir c e d).map (map .dirent id)
  | .telldir d => (s.telldir c d).map (map .int id)
  | .seekdir e d offset => (s.seekdir c e d offset).map (map (fun d => .dir (some d)) id)
  | .rewinddir e d => (s.rewinddir c e d).map (map (fun d => .dir (some d)) id)

/-- The calls that open a descriptor. -/
def Call.opens : Call → Bool
  | .open_ .. | .mkdir .. | .opendir .. => true
  | _ => false

/-- The descriptor that a call hands out. -/
def handedOut : Call → Ret → Option ℤ
  | .open_ .., .int r => if r < 0 then none else some r
  | .opendir .., .dir (some d) => some d.fd
  | _, _ => none

/-- The descriptor that a call closes: a `DIR` is gone whatever `closedir` returns. -/
def closed : Call → Ret → Option ℤ
  | .close _ fd, .int r => if r = 0 then some fd else none
  | .closedir _ d, _ => some d.fd
  | _, _ => none

/-- The open descriptors after a call. -/
def openedBy (o : Finset ℤ) (p : Call × Ret) : Finset ℤ :=
  match handedOut p.1 p.2, closed p.1 p.2 with
  | some fd, _ => Insert.insert fd o
  | none, some fd => o.erase fd
  | none, none => o

/-- The descriptors that have been handed out and not closed. -/
def openDescriptors (tr : List (Call × Ret)) : Finset ℤ := tr.foldl openedBy ∅

/-- What a call does when the entries `o` are in use. -/
structure CallSpec (c : Config) (s : Fds) (o : Finset ℤ) (call : Call) (r : Ret) (s' : Fds) :
    Prop where
  returns : step c s call = some (r, s')
  entries : Entries c s' (openedBy o (call, r))
  fresh : ∀ fd, handedOut call r = some fd → fd ∉ o
  failed : call.opens → handedOut call r = none → s'.fdTable = s.fdTable

/-- The calls that look a descriptor up. -/
theorem Entries.call_of_withFd (h : Entries c s o) {call : Call} {bad : α}
    {body : Option ℕ → FileData → Option (α × Option ℤ × FileData)} (ret : α → Ret)
    (hstep : step c s call = (s.withFd c fd bad body).map (map ret id))
    (hbody : ∀ fs file, (body (some fs) file).isSome) (hopens : call.opens = false)
    (hquiet : ∀ r, handedOut call r = none ∧ closed call r = none) :
    ∃ r s', CallSpec c s o call r s' := by
  have hsome : ∀ fs file, fs.isSome → (body fs file).isSome := by
    intro fs file hfs
    obtain ⟨fs, rfl⟩ := isSome_iff_exists.mp hfs
    exact hbody fs file
  obtain ⟨r, s', hwith, hs'⟩ := h.withFd fd bad hsome
  obtain ⟨hhanded, hclosed⟩ := hquiet (ret r)
  refine ⟨ret r, s', by rw [hstep, hwith]; rfl, ?_, ?_, ?_⟩
  · rw [openedBy, hhanded, hclosed]
    exact hs'
  · intro fd hfd
    rw [hhanded] at hfd
    cases hfd
  · intro hop
    rw [hopens] at hop
    cases hop

/-- Every call returns. -/
theorem Entries.call (h : Entries c s o) (call : Call) : ∃ r s', CallSpec c s o call r s' := by
  cases call with
  | open_ e flags =>
    obtain ⟨r, s', hopen, ⟨rfl, htable⟩ | ⟨hr, hfree, hs'⟩⟩ := h.posixOpen e flags
    · refine ⟨.int (-1), s', by rw [step, hopen]; rfl, ?_, ?_, fun _ _ => htable⟩
      · exact h.congr htable
      · intro fd hfd
        cases hfd
    · have hhanded : handedOut (.open_ e flags) (.int r) = some r := if_neg (not_lt.mpr hr)
      refine ⟨.int r, s', by rw [step, hopen]; rfl, ?_, ?_, ?_⟩
      · rw [openedBy, hhanded]
        exact hs'
      · intro fd hfd
        obtain rfl := some.inj (hhanded.symm.trans hfd)
        exact hfree
      · intro _ hnone
        rw [hhanded] at hnone
        cases hnone
  | close e fd =>
    obtain ⟨r, s', hclose, hs'⟩ := h.posixClose e fd
    refine ⟨.int r, s', by rw [step, hclose]; rfl, ?_, nofun, nofun⟩
    rcases hs' with ⟨rfl, hs'⟩ | ⟨hr, hs'⟩
    · exact hs'
    · have hopen : closed (.close e fd) (.int r) = none := if_neg hr
      rw [openedBy, hopen]
      exact hs'
  | mkdir e =>
    obtain ⟨r, s', hmkdir, htable⟩ := h.posixMkdir e
    exact ⟨.int r, s', by rw [step, hmkdir]; rfl, h.congr htable, nofun, fun _ _ => htable⟩
  | opendir e =>
    obtain ⟨r, s', hopen, ⟨rfl, htable⟩ | ⟨d, rfl, hfree, hs'⟩⟩ := h.opendir e
    · exact ⟨.dir none, s', by rw [step, hopen]; rfl, h.congr htable, nofun, fun _ _ => htable⟩
    · refine ⟨.dir (some d), s', by rw [step, hopen]; rfl, hs', ?_, nofun⟩
      intro fd hfd
      obtain rfl := some.inj hfd
      exact hfree
  | closedir e d =>
    obtain ⟨r, s', hclose, hs'⟩ := h.closedir e d
    exact ⟨.int r, s', by rw [step, hclose]; rfl, hs', nofun, nofun⟩
  | read e fd | write e fd | fsync e fd | telldir d =>
    exact h.call_of_withFd .int rfl (fun _ _ => rfl) rfl fun _ => ⟨rfl, rfl⟩
  | lseek e fd offset whence =>
    refine h.call_of_withFd .int rfl (fun fs file => ?_) rfl fun _ => ⟨rfl, rfl⟩
    cases whence with
    | set | cur | end_ => dsimp only; split_ifs <;> rfl
    | other => rfl
  | fstat fd => exact h.call_of_withFd .stat rfl (fun _ _ => rfl) rfl fun _ => ⟨rfl, rfl⟩
  | ioctl e fd =>
    refine h.call_of_withFd .int rfl (fun fs file => ?_) rfl fun _ => ⟨rfl, rfl⟩
    unfold dfsFileIoctl
    split_ifs <;> rfl
  | readdir e d =>
    refine h.call_of_withFd .dirent rfl (fun fs file => ?_) rfl fun _ => ⟨rfl, rfl⟩
    unfold dfsFileGetdents
    dsimp only
    split_ifs <;> rfl
  | seekdir e d offset =>
    exact h.call_of_withFd (fun d => .dir (some d)) rfl (fun _ _ => rfl) rfl fun _ => ⟨rfl, rfl⟩
  | rewinddir e d =>
    have hstep : step c s (.rewinddir e d) =
        (s.seekdir c e d 0).map (map (fun d => .dir (some d)) id) := rfl
    exact h.call_of_withFd _ hstep (fun _ _ => rfl) rfl fun _ => ⟨rfl, rfl⟩

/-- The entries in use are the open descriptors, in every sequence of calls. -/
theorem entries_of_run {tr : List (Call × Ret)} (h : Run (step c) dfsInit tr s) :
    Entries c s (openDescriptors tr) := by
  refine h.invTrace (I := fun tr s => Entries c s (openDescriptors tr)) entries_dfsInit ?_
  intro tr s call r s' hs hstep
  obtain ⟨r', s'', hcall⟩ := hs.call call
  obtain ⟨rfl, rfl⟩ := Prod.mk.inj (some.inj (hcall.returns.symm.trans hstep))
  rw [openDescriptors, List.foldl_append]
  exact hcall.entries

/-- After every sequence of calls the open descriptors are the entries with one reference, and all
others have none. Every call then returns; it hands out no descriptor that is open, and if it was to
open one and hands out none, all counts are as before. -/
theorem descriptor_table {tr : List (Call × Ret)} (h : Run (step c) dfsInit tr s) :
    (∀ i : ℕ, (s.fdTable i).refCount = if (i : ℤ) ∈ openDescriptors tr then 1 else 0) ∧
      ∀ call, ∃ r s', step c s call = some (r, s') ∧
        (∀ fd, handedOut call r = some fd → fd ∉ openDescriptors tr) ∧
        (call.opens → handedOut call r = none →
          ∀ i, (s'.fdTable i).refCount = (s.fdTable i).refCount) := by
  have hs := entries_of_run h
  refine ⟨hs.refCount_eq, fun call => ?_⟩
  obtain ⟨r, s', hcall⟩ := hs.call call
  refine ⟨r, s', hcall.returns, hcall.fresh, ?_⟩
  intro hopens hnone i
  rw [hcall.failed hopens hnone]

theorem zero_notMem_root : (0 : CChar) ∉ [slash] := by decide

/-- A file system at the root whose operations return `openResult` and `closeResult`. -/
def sampleEnv (openResult closeResult : ℤ) : Env where
  fullpath := some ⟨[slash], zero_notMem_root⟩
  table := [⟨some ⟨[slash], zero_notMem_root⟩, some 0⟩]
  ops _ := ⟨false, some fun file => (openResult, file), some fun file => (closeResult, file),
    none, none, none, none, none, none⟩
  strdup := true
  malloc := true

/-- Descriptor 3 is opened and a `close` of it fails; then an `opendir` fails. -/
theorem descriptor_table_sample :
    ∃ tr s, Run (step ⟨true, 2⟩) dfsInit tr s ∧ openDescriptors tr = {3} ∧
      (s.fdTable 3).refCount = 1 ∧ (s.fdTable 4).refCount = 0 := by
  have hrun : Run (step ⟨true, 2⟩) dfsInit
      [(.open_ (sampleEnv 0 0) 0, .int 3), (.close (sampleEnv 0 (-5)) 3, .int (-1)),
        (.opendir (sampleEnv (-1) 0), .dir none)] _ :=
    .snoc (.snoc (.snoc .nil rfl) rfl) rfl
  obtain ⟨hcount, -⟩ := descriptor_table hrun
  exact ⟨_, _, hrun, by decide, hcount 3, hcount 4⟩

end Fds

end RtThread.Dfs
