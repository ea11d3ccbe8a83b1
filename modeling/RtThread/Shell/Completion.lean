import RtThread.Lib.CommonPrefix
import RtThread.Shell.LineEditor

/-!
# Completion of the line

`shell_auto_complete` (`components/finsh/shell.c`, line 265) and what it calls: `msh_auto_complete`
and `msh_auto_complete_path` (`msh.c`, lines 370–566) and `list_prefix` (`cmd.c`, line 792), with
`RT_USING_DFS` and `RT_USING_MODULE`. They write the characters that all names that match have in
common into the line, which has `FINSH_CMD_SIZE` characters. A write outside of the line, or of the
block for the full path, ends the model with `none`. What is printed is left out.
-/

namespace RtThread.Shell

open Cells Kservice CommonPrefix List Function

/-- The name of a file or a directory. -/
structure FileName where
  name : CString
  short : name.chars.length ≤ 255

/-- The names in the tables of the shell: `_syscall_table`, `global_syscall_list`, `_sysvar_table`
and `global_sysvar_list`. -/
structure Names where
  syscalls : List CString
  dynSyscalls : List CString
  sysvars : List CString
  dynSysvars : List CString

/-- Whether there is memory, the working directory, and what is in a directory. -/
structure Files where
  malloc : Bool
  cwd : FileName
  opendir : List CChar → Option (List FileName)

/-- `str_common`. -/
def strCommon : List CChar → List CChar → ℕ
  | a :: str1, b :: str2 => if a = b then strCommon str1 str2 + 1 else 0
  | _, _ => 0

/-! ## Names that match -/

/-- `name_ptr` and `min_length`. -/
structure Found where
  namePtr : Option (List CChar)
  minLength : ℕ

namespace Found

def nothing : Found := ⟨none, 0⟩

def set (name : List CChar) : Found := ⟨some name, name.length⟩

/-- `length = str_common(name_ptr, name); if (length < min_length) min_length = length;` -/
def narrow (f : Found) (name : List CChar) : Found :=
  match f.namePtr with
  | some first =>
    if strCommon first name < f.minLength then { f with minLength := strCommon first name } else f
  | none => f

/-- The body of the loops of `msh_auto_complete` and `msh_auto_complete_path`. -/
def note (text : List CChar) (f : Found) (name : List CChar) : Found :=
  if text.isPrefixOf name then
    (if f.minLength = 0 then set name else f).narrow name
  else f

end Found

/-- The counters of `list_prefix`, of 16 bits, and what it has found. -/
structure Listing where
  funcCnt : BitVec 16
  varCnt : BitVec 16
  found : Found

namespace Listing

def init : Listing := ⟨0, 0, .nothing⟩

/-- What a name that matches does to `name_ptr` and `min_length`; `first` is the condition under
which it is the first one. -/
def noteMatch (text : List CChar) (first : Prop) [Decidable first] (f : Found) (name : List CChar) :
    Found :=
  if text ≠ [] then (if first then .set name else f).narrow name else f

/-- The bodies of the four loops of `list_prefix`. -/
def syscall (text : List CChar) (l : Listing) (name : List CChar) : Listing :=
  if text.isPrefixOf name then
    { l with funcCnt := l.funcCnt + 1, found := noteMatch text (l.funcCnt = 0) l.found name }
  else l

def dynSyscall (text : List CChar) (l : Listing) (name : List CChar) : Listing :=
  if text.isPrefixOf name then
    { l with
      funcCnt := l.funcCnt + 1
      found := noteMatch text (l.funcCnt = 0 ∧ l.found.namePtr = none) l.found name }
  else l

def sysvar (text : List CChar) (l : Listing) (name : List CChar) : Listing :=
  if text.isPrefixOf name then
    { l with
      varCnt := l.varCnt + 1
      found := noteMatch text (l.varCnt = 0 ∧ l.found.namePtr = none) l.found name }
  else l

end Listing

/-- `"__"` -/
def internalMark : List CChar := [0x5f, 0x5f]

/-- `"__cmd_"` -/
def cmdMark : List CChar := [0x5f, 0x5f, 0x63, 0x6d, 0x64, 0x5f]

namespace Names

variable (names : Names)

/-- The commands of `msh`. -/
def commands : List (List CChar) :=
  ((names.syscalls.map CString.chars).filter (cmdMark.isPrefixOf ·)).map (·.drop 6)

/-- The functions that `list_prefix` does not skip. -/
def functions : List (List CChar) :=
  (names.syscalls.map CString.chars).filter (¬ internalMark.isPrefixOf ·)

/-- The loops of `list_prefix`. -/
def listPrefix (text : List CChar) : Found :=
  let l := names.functions.foldl (Listing.syscall text) .init
  let l := (names.dynSyscalls.map CString.chars).foldl (Listing.dynSyscall text) l
  let l := (names.sysvars.map CString.chars).foldl (Listing.sysvar text) l
  ((names.dynSysvars.map CString.chars).foldl (Listing.sysvar text) l).found

end Names

/-! ## Completing the line -/

/-- `rt_strncpy(prefix, name_ptr, min_length)`, if a name was found. -/
def putName (mem : CMem) (f : Found) : Option CMem :=
  match f.namePtr with
  | some name =>
    if f.minLength ≤ finshCmdSize then some (rtStrncpy mem 0 (fun i => name.getD i 0) f.minLength)
    else none
  | none => some mem

/-- The loop that looks for the last `'/'` (lines 392–395), from the character `i` on. -/
def afterSlash : (path : List CChar) → (i : ℕ) → (index : Option ℕ) → Option ℕ
  | [], _, index => index
  | c :: path, i, index => afterSlash path (i + 1) (if c = slash then some (i + 1) else index)

/-- Where the name of a file starts in a path. -/
def nameStart (path : List CChar) : ℕ := (afterSlash path 0 none).getD 0

/-- The directory of a path (lines 382–408), in a block of 256 characters. -/
def fullPath (cwd path : List CChar) : List CChar :=
  let base :=
    if path.head? ≠ some slash then
      if cwd.getLast? ≠ some slash then cwd ++ [slash] else cwd
    else []
  base ++ path.take (nameStart path)

/-- `msh_auto_complete_path`, for the path at the character `start` of the line. -/
def mshAutoCompletePath (files : Files) (mem : CMem) (start : ℕ) : Option CMem :=
  (cString mem start (finshCmdSize - start)).bind fun path =>
    if files.malloc = false then some mem
    else if (fullPath files.cwd.name.chars path).length ≥ 256 then none
    else
      match files.opendir (fullPath files.cwd.name.chars path) with
      | none => some mem
      | some entries =>
        let index := nameStart path
        if path.drop index = [] then some mem
        else
          let f := (entries.map (·.name.chars)).foldl (Found.note (path.drop index)) .nothing
          match f.namePtr with
          | some name =>
            if f.minLength ≠ 0 then
              if start + index + f.minLength < finshCmdSize then
                some (update (write mem (start + index) (name.take f.minLength))
                  (start + index + f.minLength) 0)
              else none
            else some mem
          | none => some mem

/-- The loop that goes back to the last `' '` (lines 509–519), from a character on. -/
def lastSpace (text : List CChar) : ℕ → Option ℕ
  | 0 => none
  | ptr + 1 => if text.getD (ptr + 1) 0 = 0x20 then some (ptr + 1) else lastSpace text ptr

/-- Where the path starts that is completed. -/
def argStart (text : List CChar) : ℕ :=
  match lastSpace text text.length with
  | some ptr => ptr + 1
  | none => 0

/-- `msh_auto_complete`. -/
def mshAutoComplete (names : Names) (files : Files) (mem : CMem) : Option CMem :=
  if mem 0 = 0 then some mem
  else
    (cString mem 0 finshCmdSize).bind fun text =>
      (mshAutoCompletePath files mem (argStart text)).bind fun mem =>
        -- checks in internal command
        (cString mem 0 finshCmdSize).bind fun text =>
          putName mem (names.commands.foldl (Found.note text) .nothing)

/-- `shell_auto_complete`; `msh` is `msh_is_used()`. -/
def shellAutoComplete (msh : Bool) (names : Names) (files : Files) (mem : CMem) : Option CMem :=
  if msh then mshAutoComplete names files mem
  else (cString mem 0 finshCmdSize).bind fun text => putName mem (names.listPrefix text)

/-! ## What is found -/

variable {f : Found} {text name : List CChar} {ms names' : List (List CChar)}

theorem strCommon_eq (x y : List CChar) : strCommon x y = (common x y).length := by
  induction x generalizing y with
  | nil => rfl
  | cons a x ih =>
    cases y with
    | nil => rfl
    | cons b y =>
      rw [strCommon, common]
      split_ifs
      · rw [ih, length_cons]
      · rfl

/-- `name_ptr` is the first of the names, and `min_length` the length of what they have in common.
-/
inductive Found.Is : Found → List (List CChar) → Prop
  | nothing : Is .nothing []
  | names {f : Found} {x : List CChar} {xs : List (List CChar)} (hname : f.namePtr = some x)
      (htake : x.take f.minLength = commonPrefix (x :: xs))
      (hlen : f.minLength = (commonPrefix (x :: xs)).length) : Is f (x :: xs)

namespace Found

theorem is_set (name : List CChar) : ((set name).narrow name).Is [name] := by
  have hself : strCommon name name = name.length := by rw [strCommon_eq, common_self]
  have hnarrow : (set name).narrow name = set name := by
    simp only [narrow, set, hself, lt_irrefl, if_false]
  rw [hnarrow]
  exact .names rfl (take_length) rfl

theorem Is.narrow (h : f.Is ms) (hms : ms ≠ []) (name : List CChar) :
    (f.narrow name).Is (ms ++ [name]) := by
  cases h with
  | nothing => exact absurd rfl hms
  | @names f x xs hname htake hlen =>
    obtain ⟨_, m⟩ := f
    cases hname
    simp only [] at htake hlen
    have hnarrow : narrow ⟨some x, m⟩ name = ⟨some x, min m (common x name).length⟩ := by
      rw [← strCommon_eq]
      simp only [narrow]
      split_ifs with hlt
      · rw [min_eq_right hlt.le]
      · rw [min_eq_left (not_lt.mp hlt)]
    have htake' : x.take (min m (common x name).length) = commonPrefix (x :: xs ++ [name]) := by
      rw [commonPrefix_append (by simp), ← htake, common_take]
    have hle : m ≤ x.length := by
      have := congrArg length htake
      rw [length_take] at this
      omega
    have hlen' : (x.take (min m (common x name).length)).length = min m (common x name).length := by
      rw [length_take, min_eq_left ((min_le_left ..).trans hle)]
    rw [hnarrow]
    exact .names rfl htake' (hlen'.symm.trans (congrArg length htake'))

/-- The first name is recognised by `min_length`. -/
theorem Is.minLength_eq_zero (h : f.Is ms) (htext : text ≠ []) (hms : ∀ x ∈ ms, text <+: x) :
    f.minLength = 0 ↔ ms = [] := by
  cases h with
  | nothing => exact iff_of_true rfl rfl
  | @names f x xs hname htake hlen =>
    have hle := (prefix_commonPrefix (by simp) hms).length_le
    have hpos := length_pos_iff.mpr htext
    exact iff_of_false (by omega) (by simp)

theorem Is.note (h : f.Is ms) (htext : text ≠ []) (hms : ∀ x ∈ ms, text <+: x) (name : List CChar) :
    (f.note text name).Is (ms ++ [name].filter (text.isPrefixOf ·)) := by
  unfold Found.note
  split_ifs with hpre hfirst
  · rw [(h.minLength_eq_zero htext hms).mp hfirst, filter_cons_of_pos hpre]
    exact is_set name
  · rw [filter_cons_of_pos hpre]
    exact h.narrow (mt (h.minLength_eq_zero htext hms).mpr hfirst) name
  · rw [filter_cons_of_neg hpre, filter_nil, append_nil]
    exact h

end Found

/-- The names that begin with a text. -/
def matching (text : List CChar) (names : List (List CChar)) : List (List CChar) :=
  names.filter (text.isPrefixOf ·)

theorem mem_matching {x : List CChar} (hx : x ∈ matching text names') : text <+: x :=
  isPrefixOf_iff_prefix.mp (mem_filter.mp hx).2

theorem matching_append (text : List CChar) (xs ys : List (List CChar)) :
    matching text (xs ++ ys) = matching text xs ++ matching text ys := filter_append ..

theorem is_foldl_note (htext : text ≠ []) (names' : List (List CChar)) :
    (names'.foldl (Found.note text) .nothing).Is (matching text names') := by
  induction names' using reverseRecOn with
  | nil => exact .nothing
  | append_singleton names' name ih =>
    rw [foldl_append, matching_append]
    exact ih.note htext (fun x hx => mem_matching hx) name

/-! ## `list_prefix` -/

/-- The names since `func_cnt` was 0 the last time. -/
def batch (ms : List (List CChar)) : List (List CChar) :=
  ms.drop (2 ^ 16 * ((ms.length - 1) / 2 ^ 16))

theorem batch_append (ms : List (List CChar)) (name : List CChar) :
    batch (ms ++ [name]) = if ms.length % 2 ^ 16 = 0 then [name] else batch ms ++ [name] := by
  unfold batch
  rw [length_append, length_singleton, Nat.add_sub_cancel]
  split_ifs with hmod
  · rw [Nat.mul_div_cancel' (Nat.dvd_of_mod_eq_zero hmod), drop_left]
  · rw [show ms.length / 2 ^ 16 = (ms.length - 1) / 2 ^ 16 by omega,
      drop_append_of_le_length (by omega)]

theorem batch_ne_nil (hms : ms ≠ []) : batch ms ≠ [] := by
  have hpos := length_pos_iff.mpr hms
  intro hnil
  have := drop_eq_nil_iff.mp hnil
  omega

namespace Listing

variable {l : Listing} {first : Prop}

theorem noteMatch_of_ne (htext : text ≠ []) [Decidable first] (h : f.Is ms)
    (hfirst : first ↔ ms = []) (name : List CChar) :
    (noteMatch text first f name).Is (ms ++ [name]) := by
  unfold noteMatch
  split_ifs with hf
  · rw [hfirst.mp hf]
    exact Found.is_set name
  · exact h.narrow (mt hfirst.mpr hf) name

/-- The functions of the table: `func_cnt` counts those that match, in 16 bits. -/
theorem foldl_syscall (htext : text ≠ []) (names' : List (List CChar)) :
    let l := names'.foldl (syscall text) init
    l.funcCnt = BitVec.ofNat 16 (matching text names').length ∧ l.varCnt = 0 ∧
      l.found.Is (batch (matching text names')) := by
  induction names' using reverseRecOn with
  | nil =>
    refine ⟨rfl, rfl, ?_⟩
    rw [matching, filter_nil]
    exact .nothing
  | append_singleton names' name ih =>
    obtain ⟨hcnt, hvar, his⟩ := ih
    simp only [foldl_append, foldl_cons, foldl_nil, matching_append, syscall]
    generalize names'.foldl (syscall text) init = l at hcnt hvar his
    generalize matching text names' = ms at hcnt his
    by_cases hpre : text.isPrefixOf name = true
    · have hone : matching text [name] = [name] := filter_cons_of_pos hpre
      have hzero : l.funcCnt = 0 ↔ ms.length % 2 ^ 16 = 0 := by
        rw [hcnt, ← BitVec.toNat_inj]
        rfl
      simp only [if_pos hpre, hone]
      refine ⟨?_, hvar, ?_⟩
      · rw [hcnt, length_append, BitVec.ofNat_add]
        rfl
      · rw [batch_append]
        unfold noteMatch
        split_ifs with hf hmod hmod
        · exact Found.is_set name
        · exact absurd (hzero.mp hf) hmod
        · exact absurd (hzero.mpr hmod) hf
        · refine his.narrow (batch_ne_nil ?_) name
          rintro rfl
          exact hmod rfl
    · have hnone : matching text [name] = [] := filter_cons_of_neg hpre
      simp only [if_neg hpre, hnone, append_nil]
      exact ⟨hcnt, hvar, his⟩

/-- After that a name is the first one just if there is none yet. -/
structure Listed (l : Listing) (ms : List (List CChar)) : Prop where
  found : l.found.Is ms
  none_counted : ms = [] → l.funcCnt = 0 ∧ l.varCnt = 0

theorem Listed.namePtr_eq_none (h : l.Listed ms) : l.found.namePtr = none ↔ ms = [] := by
  have hfound := h.found
  generalize l.found = f at hfound ⊢
  cases hfound with
  | nothing => exact iff_of_true rfl rfl
  | names hname _ _ => exact iff_of_false (by simp [hname]) (by simp)

/-- The body of a loop that counts with `cnt`. -/
theorem Listed.step {l' : Listing} {name : List CChar} (h : l.Listed ms) (htext : text ≠ [])
    (cnt : BitVec 16) (hcnt : ms = [] → cnt = 0)
    (hfound : l'.found = noteMatch text (cnt = 0 ∧ l.found.namePtr = none) l.found name) :
    (if text.isPrefixOf name then l' else l).Listed (ms ++ matching text [name]) := by
  have hfirst : cnt = 0 ∧ l.found.namePtr = none ↔ ms = [] := by
    rw [h.namePtr_eq_none]
    exact ⟨And.right, fun hnil => ⟨hcnt hnil, hnil⟩⟩
  split_ifs with hp
  · have hone : matching text [name] = [name] := filter_cons_of_pos hp
    rw [hone]
    exact ⟨hfound ▸ noteMatch_of_ne htext h.found hfirst name, fun hnil => by simp at hnil⟩
  · have hnone : matching text [name] = [] := filter_cons_of_neg hp
    rw [hnone, append_nil]
    exact h

theorem Listed.foldl {step : Listing → List CChar → Listing}
    (hstep : ∀ {l ms}, l.Listed ms → ∀ name, (step l name).Listed (ms ++ matching text [name]))
    (h : l.Listed ms) (names' : List (List CChar)) :
    (names'.foldl step l).Listed (ms ++ matching text names') := by
  induction names' using reverseRecOn with
  | nil => rwa [matching, filter_nil, append_nil]
  | append_singleton names' name ih =>
    rw [foldl_append, matching_append, ← append_assoc]
    exact hstep ih name

theorem Listed.dynSyscall (h : l.Listed ms) (htext : text ≠ []) (name : List CChar) :
    (dynSyscall text l name).Listed (ms ++ matching text [name]) :=
  h.step htext l.funcCnt (fun hnil => (h.none_counted hnil).1) rfl

theorem Listed.sysvar (h : l.Listed ms) (htext : text ≠ []) (name : List CChar) :
    (sysvar text l name).Listed (ms ++ matching text [name]) :=
  h.step htext l.varCnt (fun hnil => (h.none_counted hnil).2) rfl

end Listing

namespace Names

variable (names : Names)

/-- The names that `list_prefix` finds. -/
def listed (text : List CChar) : List (List CChar) :=
  batch (matching text names.functions) ++ matching text (names.dynSyscalls.map CString.chars) ++
    matching text (names.sysvars.map CString.chars) ++
    matching text (names.dynSysvars.map CString.chars)

theorem is_listPrefix (htext : text ≠ []) : (names.listPrefix text).Is (names.listed text) := by
  obtain ⟨hcnt, hvar, his⟩ := Listing.foldl_syscall htext names.functions
  have hstart : (names.functions.foldl (Listing.syscall text) .init).Listed
      (batch (matching text names.functions)) := by
    refine ⟨his, fun hnil => ⟨?_, hvar⟩⟩
    have : matching text names.functions = [] := not_not.mp (mt batch_ne_nil (not_not.mpr hnil))
    rw [hcnt, this]
    rfl
  exact (((hstart.foldl (fun h name => h.dynSyscall htext name) _).foldl
    (fun h name => h.sysvar htext name) _).foldl (fun h name => h.sysvar htext name) _).found

theorem prefix_of_mem_listed {x : List CChar} (hx : x ∈ names.listed text) : text <+: x := by
  simp only [listed, mem_append] at hx
  rcases hx with ((hx | hx) | hx) | hx
  · exact mem_matching (mem_of_mem_drop hx)
  all_goals exact mem_matching hx

end Names

/-! ## Writing into the line -/

/-- What the names have in common leaves a zero in the line: the one that ends the text, or another
one behind it. -/
def LeavesZero (mem : CMem) (text : List CChar) (ms : List (List CChar)) : Prop :=
  ms ≠ [] → ∃ i, (commonPrefix ms).length ≤ i ∧ i < finshCmdSize ∧
    (i = text.length ∨ text.length < i ∧ mem i = 0)

variable {mem : CMem}

theorem putName_iff (h : StringAt mem 0 text) (hlen : text.length < finshCmdSize) (hf : f.Is ms)
    (hms : ∀ x ∈ ms, text <+: x ∧ 0 ∉ x) :
    (∃ mem', putName mem f = some mem' ∧ ∃ i < finshCmdSize, mem' i = 0) ↔
      LeavesZero mem text ms := by
  have hend : mem text.length = 0 := by
    have := h.end_zero
    rwa [Nat.zero_add] at this
  cases hf with
  | nothing =>
    exact iff_of_true ⟨mem, rfl, text.length, hlen, hend⟩ fun hne => absurd rfl hne
  | @names f x xs hname htake hmin =>
    have hle := (prefix_commonPrefix (by simp) fun x hx => (hms x hx).1).length_le
    have hx : 0 ∉ x := (hms x (by simp)).2
    have hshort : f.minLength ≤ x.length := by
      have := congrArg length htake
      rw [length_take] at this
      omega
    simp only [putName, hname, LeavesZero, ne_eq, reduceCtorEq, not_false_eq_true, forall_const]
    constructor
    · rintro ⟨mem', hput, i, hi, hzero⟩
      split_ifs at hput with hroom
      cases hput
      rcases lt_or_ge i f.minLength with hlt | hge
      · -- a character of the name
        rw [padded_rtStrncpy hx i hlt, getD_eq_getElem _ _ (by omega)] at hzero
        exact absurd (hzero ▸ getElem_mem _) hx
      · rw [rtStrncpy, strncpyLoop_outside (by omega)] at hzero
        refine ⟨i, by omega, hi, ?_⟩
        rcases Nat.eq_or_lt_of_le (hle.trans (hmin ▸ hge)) with heq | hlt
        · exact .inl heq.symm
        · exact .inr ⟨hlt, hzero⟩
    · rintro ⟨i, hge, hi, hcell⟩
      rw [if_pos (by omega)]
      refine ⟨_, rfl, i, hi, ?_⟩
      rw [rtStrncpy, strncpyLoop_outside (by omega)]
      rcases hcell with rfl | ⟨-, hzero⟩
      · exact hend
      · exact hzero

/-! ## Completing a path -/

theorem afterSlash_le {path : List CChar} {i j : ℕ} {index : Option ℕ}
    (hindex : ∀ k, index = some k → k ≤ i) (h : afterSlash path i index = some j) :
    j ≤ i + path.length := by
  induction path generalizing i index with
  | nil => exact hindex j h
  | cons c path ih =>
    refine (ih (fun k hk => ?_) h).trans (by rw [length_cons]; omega)
    split_ifs at hk
    · cases hk
      exact le_rfl
    · exact (hindex k hk).trans (Nat.le_succ i)

theorem nameStart_le (path : List CChar) : nameStart path ≤ path.length := by
  unfold nameStart
  cases h : afterSlash path 0 none with
  | none => exact Nat.zero_le _
  | some j =>
    have := afterSlash_le (by simp) h
    rwa [Nat.zero_add] at this

theorem argStart_le (text : List CChar) : argStart text ≤ text.length := by
  have hspace : ∀ n ptr, lastSpace text n = some ptr → ptr < text.length := by
    intro n
    induction n with
    | zero => intro ptr h; cases h
    | succ n ih =>
      intro ptr h
      rw [lastSpace] at h
      split_ifs at h with hc
      · cases h
        by_contra hge
        rw [getD_eq_default _ _ (not_lt.mp hge)] at hc
        exact absurd hc (by decide)
      · exact ih ptr h
  unfold argStart
  cases h : lastSpace text text.length with
  | none => exact Nat.zero_le _
  | some ptr => exact hspace _ ptr h

/-- The names in the directory of a path that begin as the path does. -/
def fileMatches (files : Files) (path : List CChar) : List (List CChar) :=
  if files.malloc = false ∨ path.drop (nameStart path) = [] then []
  else
    match files.opendir (fullPath files.cwd.name.chars path) with
    | none => []
    | some entries => matching (path.drop (nameStart path)) (entries.map (·.name.chars))

def completePath (files : Files) (path : List CChar) : List CChar :=
  if fileMatches files path = [] then path
  else path.take (nameStart path) ++ commonPrefix (fileMatches files path)

/-- The line after its last path has been completed. -/
def completeFile (files : Files) (text : List CChar) : List CChar :=
  text.take (argStart text) ++ completePath files (text.drop (argStart text))

/-- The full path of the directory has room in its block. -/
def DirFits (files : Files) (path : List CChar) : Prop :=
  files.malloc = true → (fullPath files.cwd.name.chars path).length < 256

/-- A name is written over the end of the line. -/
theorem stringAt_write {w : List CChar} {k : ℕ} (h : StringAt mem 0 text) (hk : k ≤ text.length)
    (hw : 0 ∉ w) :
    StringAt (update (write mem k w) (k + w.length) 0) 0 (text.take k ++ w) ∧
      ∀ i, k + w.length < i → update (write mem k w) (k + w.length) 0 i = mem i := by
  have hlen : (text.take k).length = k := by rw [length_take, min_eq_left hk]
  have htext : Holds mem 0 (text.take k) := by
    have hholds := h.holds
    rw [← take_append_drop k text, append_assoc] at hholds
    exact (holds_append.mp hholds).1
  refine ⟨⟨?_, ?_⟩, fun i hi => ?_⟩
  · rw [append_assoc, holds_append, holds_append, hlen, Nat.zero_add]
    refine ⟨htext.congr fun b _ hb => ?_, ?_, update_self .., trivial⟩
    · rw [hlen, Nat.zero_add] at hb
      rw [update_of_ne (by omega), write_outside (.inl hb)]
    · exact (holds_write mem k w).update (.inr le_rfl) 0
  · rw [mem_append, not_or]
    exact ⟨fun hmem => h.nonzero (mem_of_mem_take hmem), hw⟩
  · rw [update_of_ne (by omega), write_outside (.inr (by omega))]

theorem zero_not_mem_matching {t x : List CChar} {ns : List CString}
    (hx : x ∈ matching t (ns.map CString.chars)) : 0 ∉ x := by
  obtain ⟨n, -, rfl⟩ := mem_map.mp (mem_filter.mp hx).1
  exact n.nonzero

/-- The result of writing a text into the line: the cells behind it stay as they are. -/
structure Written (mem : CMem) (t : List CChar) (fits : Prop) (result : Option CMem) : Prop where
  inside : fits → ∃ mem', result = some mem' ∧ StringAt mem' 0 t ∧
    ∀ i, t.length < i → mem' i = mem i
  outside : ¬ fits → result = none

theorem mshAutoCompletePath_spec (files : Files) (h : StringAt mem 0 text)
    (hlen : text.length < finshCmdSize) :
    Written mem (completeFile files text)
      (DirFits files (text.drop (argStart text)) ∧ (completeFile files text).length < finshCmdSize)
      (mshAutoCompletePath files mem (argStart text)) := by
  have hstart := argStart_le text
  have hsplit := take_append_drop (argStart text) text
  have htake : (text.take (argStart text)).length = argStart text := by
    rw [length_take, min_eq_left hstart]
  unfold completeFile
  generalize argStart text = start at *
  generalize hpath : text.drop start = path at *
  have hpathlen : path.length = text.length - start := by rw [← hpath, length_drop]
  have hstr : StringAt mem start path := by
    have := StringAt.drop (s := text.take start) (t := path) (by rwa [hsplit])
    rwa [htake, Nat.zero_add] at this
  -- where nothing is completed, the line stays as it is
  have hsame : fileMatches files path = [] → (files.malloc = true → DirFits files path) →
      Written mem (text.take start ++ completePath files path)
        (DirFits files path ∧ (text.take start ++ completePath files path).length < finshCmdSize)
        (some mem) := by
    intro hnil hdir
    have hfits : DirFits files path := fun hm => hdir hm hm
    rw [completePath, if_pos hnil, hsplit]
    exact ⟨fun _ => ⟨mem, rfl, h, fun _ _ => rfl⟩, fun hnot => absurd ⟨hfits, hlen⟩ hnot⟩
  rw [mshAutoCompletePath, cString_eq hstr (by omega), Option.bind_some]
  by_cases hmalloc : files.malloc = false
  · rw [if_pos hmalloc]
    exact hsame (if_pos (.inl hmalloc)) fun hm => absurd (hmalloc.symm.trans hm) (by decide)
  rw [if_neg hmalloc]
  by_cases hbig : (fullPath files.cwd.name.chars path).length ≥ 256
  · rw [if_pos hbig]
    refine ⟨fun hfits => ?_, fun _ => rfl⟩
    have := hfits.1 (by simpa using hmalloc)
    omega
  rw [if_neg hbig]
  have hdir : DirFits files path := fun _ => not_le.mp hbig
  cases hopen : files.opendir (fullPath files.cwd.name.chars path) with
  | none => exact hsame (by simp [fileMatches, hopen]) fun _ => hdir
  | some entries =>
    simp only []
    by_cases hname : path.drop (nameStart path) = []
    · rw [if_pos hname]
      exact hsame (if_pos (.inr hname)) fun _ => hdir
    rw [if_neg hname]
    have hmatches : fileMatches files path =
        matching (path.drop (nameStart path)) (entries.map (·.name.chars)) := by
      rw [fileMatches, if_neg (by simp [hmalloc, hname]), hopen]
    have his := is_foldl_note hname (entries.map (·.name.chars))
    have hzero : ∀ x ∈ fileMatches files path, 0 ∉ x := by
      rw [hmatches]
      intro x hx
      obtain ⟨e, -, rfl⟩ := mem_map.mp (mem_filter.mp hx).1
      exact e.name.nonzero
    have hpos := his.minLength_eq_zero hname fun x hx => mem_matching hx
    rw [← hmatches] at his hpos
    generalize (entries.map (·.name.chars)).foldl (Found.note (path.drop (nameStart path)))
      .nothing = f at his hpos
    generalize hms : fileMatches files path = ms at *
    cases his with
    | nothing => exact hsame rfl fun _ => hdir
    | @names f x xs hptr htakex hmin =>
      have hle := nameStart_le path
      have hw : 0 ∉ commonPrefix (x :: xs) := by
        rw [← htakex]
        exact fun hmem => hzero x (by simp) (mem_of_mem_take hmem)
      have htext : text.take start ++ completePath files path =
          text.take (start + nameStart path) ++ commonPrefix (x :: xs) := by
        rw [completePath, hms, if_neg (by simp), take_add, hpath, append_assoc]
      have htextlen : (text.take (start + nameStart path) ++ commonPrefix (x :: xs)).length =
          start + nameStart path + f.minLength := by
        rw [length_append, length_take, min_eq_left (by omega), hmin]
      rw [htext, htextlen, hptr]
      simp only []
      rw [if_pos (mt hpos.mp (by simp)), htakex, hmin]
      obtain ⟨hat, hframe⟩ :=
        stringAt_write h (show start + nameStart path ≤ text.length by omega) hw
      refine ⟨fun hfits => ?_, fun hnot => ?_⟩
      · rw [if_pos hfits.2]
        exact ⟨_, rfl, hat, fun i hi => hframe i (by rwa [htextlen, hmin] at hi)⟩
      · rw [if_neg fun hroom => hnot ⟨hdir, hroom⟩]

/-! ## The line afterwards -/

/-- Where `shell_auto_complete` stays in the line. -/
def CompletionFits (msh : Bool) (names : Names) (files : Files) (mem : CMem) (text : List CChar) :
    Prop :=
  if text = [] then True
  else if msh then
    DirFits files (text.drop (argStart text)) ∧ (completeFile files text).length < finshCmdSize ∧
      LeavesZero mem (completeFile files text) (matching (completeFile files text) names.commands)
  else LeavesZero mem text (names.listed text)

theorem completeFile_ne_nil (files : Files) (htext : text ≠ []) : completeFile files text ≠ [] := by
  unfold completeFile completePath
  generalize hpath : text.drop (argStart text) = path
  split_ifs with hnil
  · rwa [← hpath, take_append_drop]
  · -- the common beginning has the part of the name that is there
    have hname : path.drop (nameStart path) ≠ [] := by
      intro hname
      exact hnil (if_pos (.inr hname))
    have hpre : path.drop (nameStart path) <+: commonPrefix (fileMatches files path) := by
      refine prefix_commonPrefix hnil fun x hx => ?_
      unfold fileMatches at hx
      split_ifs at hx with hnone
      · simp at hx
      · split at hx
        · simp at hx
        · exact mem_matching hx
    intro happ
    simp only [append_eq_nil_iff] at happ
    rw [happ.2.2] at hpre
    exact hname (prefix_nil.mp hpre)

theorem LeavesZero.congr {mem' : CMem} (hmem : ∀ i, text.length < i → mem' i = mem i) :
    LeavesZero mem' text ms ↔ LeavesZero mem text ms := by
  refine forall_congr' fun _ => exists_congr fun i => and_congr_right fun _ =>
    and_congr_right fun _ => or_congr_right (and_congr_right fun hi => ?_)
  rw [hmem i hi]

namespace Names

variable (names : Names) {x : List CChar}

theorem zero_not_mem_commands (hx : x ∈ names.commands) : 0 ∉ x := by
  obtain ⟨y, hy, rfl⟩ := mem_map.mp hx
  obtain ⟨n, -, rfl⟩ := mem_map.mp (mem_filter.mp hy).1
  exact fun hmem => n.nonzero (mem_of_mem_drop hmem)

theorem zero_not_mem_listed (hx : x ∈ names.listed text) : 0 ∉ x := by
  simp only [listed, mem_append] at hx
  rcases hx with ((hx | hx) | hx) | hx
  · obtain ⟨n, -, rfl⟩ :=
      mem_map.mp (mem_filter.mp (mem_filter.mp (mem_of_mem_drop hx)).1).1
    exact n.nonzero
  all_goals exact zero_not_mem_matching hx

theorem listPrefix_nil : names.listPrefix [] = .nothing := by
  have hfold : ∀ (step : Listing → List CChar → Listing), (∀ l n, (step l n).found = l.found) →
      ∀ (ns : List (List CChar)) (l : Listing), (ns.foldl step l).found = l.found := by
    intro step hstep ns
    induction ns with
    | nil => exact fun _ => rfl
    | cons n ns ih =>
      intro l
      rw [foldl_cons, ih, hstep]
  rw [listPrefix, hfold (Listing.sysvar []) fun _ _ => rfl,
    hfold (Listing.sysvar []) fun _ _ => rfl, hfold (Listing.dynSyscall []) fun _ _ => rfl,
    hfold (Listing.syscall []) fun _ _ => rfl]
  rfl

end Names

/-- `shell_auto_complete` writes only into the line and leaves a zero in it, exactly if what it
writes has room there: the completed path with the zero behind it, and what the names of the
commands have in common before a zero that is left of what was in the line. -/
theorem completion_inside_iff (msh : Bool) (names : Names) (files : Files)
    (h : StringAt mem 0 text) (hlen : text.length < finshCmdSize) :
    (∃ mem', shellAutoComplete msh names files mem = some mem' ∧ ∃ i < finshCmdSize, mem' i = 0) ↔
      CompletionFits msh names files mem text := by
  have hend : mem text.length = 0 := by
    have := h.end_zero
    rwa [Nat.zero_add] at this
  unfold shellAutoComplete CompletionFits
  by_cases htext : text = []
  · subst htext
    rw [length_nil] at hend
    refine iff_of_true ⟨mem, ?_, 0, by decide, hend⟩ trivial
    cases msh with
    | true => rw [if_pos rfl, mshAutoComplete, if_pos hend]
    | false =>
      rw [cString_eq h hlen, Option.bind_some, names.listPrefix_nil]
      rfl
  rw [if_neg htext]
  cases msh with
  | false =>
    rw [cString_eq h hlen]
    exact putName_iff h hlen (names.is_listPrefix htext) fun x hx =>
      ⟨names.prefix_of_mem_listed hx, names.zero_not_mem_listed hx⟩
  | true =>
    have hfirst : mem 0 ≠ 0 := by
      cases text with
      | nil => exact absurd rfl htext
      | cons c text => rw [h.head]; exact h.ne_zero
    obtain ⟨hin, hout⟩ := mshAutoCompletePath_spec files h hlen
    rw [mshAutoComplete, if_neg hfirst, cString_eq h hlen, Option.bind_some, ← and_assoc]
    by_cases hfits : DirFits files (text.drop (argStart text)) ∧
        (completeFile files text).length < finshCmdSize
    · obtain ⟨mem₁, hpath, hat, hframe⟩ := hin hfits
      rw [hpath, Option.bind_some, cString_eq hat hfits.2, and_iff_right hfits,
        ← LeavesZero.congr hframe]
      exact putName_iff hat hfits.2 (is_foldl_note (completeFile_ne_nil files htext) _) fun x hx =>
        ⟨mem_matching hx, names.zero_not_mem_commands (mem_filter.mp hx).1⟩
    · rw [hout hfits]
      refine iff_of_false ?_ fun hnot => hfits hnot.1
      rintro ⟨mem', hnone, -⟩
      cases hnone

theorem zero_not_mem_slash : 0 ∉ [slash] := by decide

theorem length_slash_le : [slash].length ≤ 255 := by decide

/-- The directory `/`. -/
def rootDir : FileName := ⟨⟨[slash], zero_not_mem_slash⟩, length_slash_le⟩

/-- No files, and the one command that is given. -/
def noFiles : Files := ⟨true, rootDir, fun _ => none⟩

def oneCommand (name : CString) : Names :=
  ⟨[⟨cmdMark ++ name.chars, by
    rw [mem_append, not_or]
    exact ⟨by decide, name.nonzero⟩⟩], [], [], []⟩

/-- `l`, and the command `ls`. -/
theorem completion_inside_iff_sample :
    (∃ mem', shellAutoComplete true (oneCommand ⟨[0x6c, 0x73], by decide⟩) noFiles
        (fun i => [0x6c].getD i 0) = some mem' ∧ ∃ i < finshCmdSize, mem' i = 0) ↔
      CompletionFits true (oneCommand ⟨[0x6c, 0x73], by decide⟩) noFiles
        (fun i => [0x6c].getD i 0) [0x6c] :=
  completion_inside_iff true _ noFiles
    (Padded.stringAt (fun _ _ => rfl) (by decide) (Nat.lt_succ_self _)) (by decide)

/-- A command of 100 characters. -/
def longCommand : CString := ⟨replicate 100 0x61, by decide⟩

theorem length_longCommand_le : longCommand.chars.length ≤ 255 := by decide

/-- A directory with a file of 100 characters. -/
def longFile : Files := ⟨true, rootDir, fun _ => some [⟨longCommand, length_longCommand_le⟩]⟩

/-- The name of a long command, or of a long file, is written over the end of the line; and that of
a short command over the only zero in it. -/
theorem completion_leaves_line :
    (shellAutoComplete true (oneCommand longCommand) noFiles (fun i => [0x61].getD i 0)).isNone ∧
    (shellAutoComplete true (oneCommand longCommand) longFile
      (fun i => [0x6c, 0x73, 0x20, 0x61].getD i 0)).isNone ∧
    (shellAutoComplete true (oneCommand ⟨[0x61, 0x62], by decide⟩) noFiles
      (fun i => if i = 1 then 0 else 0x61)).map
        (fun mem => (range finshCmdSize).all fun i => decide (mem i ≠ 0)) = some true := by
  set_option maxRecDepth 2048 in
  decide

end RtThread.Shell
