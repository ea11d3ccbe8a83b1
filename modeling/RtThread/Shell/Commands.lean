import RtThread.Shell.Completion

/-!
# Completion of a command

`msh_auto_complete` (`components/finsh/msh.c`, line 489) without `RT_USING_DFS`. The names of the
commands that begin with the text in the line are printed, and what they have in common is written
over the text. It is found as the least length that a name has in common with the first one.

* `foldl_noteCommand`: what the loop over the table finds and prints.
* `putCommon_padded`: what the copy leaves in the line.
* `command_completion`: the line afterwards is the longest common beginning of the names printed.
-/

namespace RtThread.Shell

open Cells Kservice CommonPrefix List

def newline : CChar := 0x0a

def ascii (s : String) : List CChar := s.toList.map fun c => UInt8.ofNat c.toNat

namespace NoDfs

/-- `msh_help`: the texts that it passes to `rt_kprintf`. -/
def mshHelp (names : Names) : List (List CChar) :=
  [ascii "RT-Thread shell commands:\n"] ++ names.commands.map (· ++ ascii " ") ++ [[newline]]

/-- The body of the loop, for a command of the table: `name_ptr` and `min_length`, and the texts
that have been passed to `rt_kprintf`. -/
def noteCommand (text : List CChar) (r : Found × List (List CChar)) (name : List CChar) :
    Found × List (List CChar) :=
  if text.isPrefixOf name then (r.1.note text name, r.2 ++ [name ++ [newline]]) else r

/-- `rt_strncpy(prefix, name_ptr, min_length)`, if `name_ptr` is not `NULL`. -/
def putCommon (mem : CMem) (f : Found) : CMem :=
  match f.namePtr with
  | some name => rtStrncpy mem 0 (fun i => name.getD i 0) f.minLength
  | none => mem

/-- `msh_auto_complete` for a buffer of `size` characters: what is printed, and the buffer. There is
no result if there is no zero in the buffer. -/
def mshAutoComplete (names : Names) (size : ℕ) (mem : CMem) : Option (List (List CChar) × CMem) :=
  if mem 0 = 0 then some (mshHelp names, mem)
  else
    (cString mem 0 size).map fun text =>
      let r := names.commands.foldl (noteCommand text) (.nothing, [])
      (r.2, putCommon mem r.1)

variable {text : List CChar} {ms : List (List CChar)} {mem : CMem} {size : ℕ} {f : Found}

/-- The names that match are printed, in the order of the table. -/
theorem foldl_noteCommand (text : List CChar) (names : List (List CChar)) :
    names.foldl (noteCommand text) (.nothing, []) =
      (names.foldl (Found.note text) .nothing, (matching text names).map (· ++ [newline])) := by
  induction names using reverseRecOn with
  | nil => rfl
  | append_singleton names name ih =>
    rw [foldl_append, foldl_append, ih, matching_append, map_append]
    simp only [foldl_cons, foldl_nil, noteCommand]
    by_cases hpre : text.isPrefixOf name = true
    · have hone : matching text [name] = [name] := filter_cons_of_pos hpre
      rw [if_pos hpre, hone]
      rfl
    · have hnone : matching text [name] = [] := filter_cons_of_neg hpre
      rw [if_neg hpre, hnone, Found.note, if_neg hpre]
      exact Prod.ext rfl (append_nil _).symm

theorem putCommon_nil (hf : f.Is []) : putCommon mem f = mem := by
  cases hf
  rfl

/-- What the names have in common is written over the text, which it begins with; behind it the
buffer is zero as before. -/
theorem putCommon_padded (hpadded : Padded mem size text) (hf : f.Is ms) (hne : ms ≠ [])
    (hms : ∀ x ∈ ms, text <+: x ∧ 0 ∉ x) (hroom : (commonPrefix ms).length < size) :
    Padded (putCommon mem f) size (commonPrefix ms) ∧
      ∀ i, size ≤ i → putCommon mem f i = mem i := by
  cases hf with
  | nothing => exact absurd rfl hne
  | @names f x xs hname htake hmin =>
    have hx : 0 ∉ x := (hms x (mem_cons_self ..)).2
    have htext := (prefix_commonPrefix hne fun y hy => (hms y hy).1).length_le
    have habove : ∀ i, f.minLength ≤ i → putCommon mem f i = mem i := by
      intro i hi
      simp only [putCommon, hname, rtStrncpy]
      exact strncpyLoop_outside (by omega)
    refine ⟨fun i hi => ?_, fun i hi => habove i (by omega)⟩
    rcases lt_or_ge i f.minLength with hlt | hge
    · have hcopied : putCommon mem f i = x.getD i 0 := by
        simp only [putCommon, hname]
        exact padded_rtStrncpy hx i hlt
      rw [hcopied, ← htake]
      simp only [getD_eq_getElem?_getD, getElem?_take, if_pos hlt]
    · rw [habove i hge, hpadded i hi, getD_eq_default _ _ (by omega),
        getD_eq_default _ _ (by omega)]

/-- For every table of commands and every text in a buffer that is zero behind it and has room for
what the names that begin with the text have in common: just these names are printed; and the
longest common beginning of them replaces the text, which stays if there are none. -/
theorem command_completion (names : Names) (htext : text ≠ []) (hzero : 0 ∉ text)
    (hlen : text.length < size) (hpadded : Padded mem size text)
    (hroom : (commonPrefix (matching text names.commands)).length < size) :
    ∃ mem', mshAutoComplete names size mem =
        some ((matching text names.commands).map (· ++ [newline]), mem') ∧
      (∀ i, size ≤ i → mem' i = mem i) ∧
      (matching text names.commands = [] → mem' = mem) ∧
      (matching text names.commands ≠ [] →
        Padded mem' size (commonPrefix (matching text names.commands)) ∧
        ∀ t, t <+: commonPrefix (matching text names.commands) ↔
          ∀ x ∈ matching text names.commands, t <+: x) := by
  have hstr : StringAt mem 0 text := hpadded.stringAt hzero hlen
  have hfirst : mem 0 ≠ 0 := by
    cases text with
    | nil => exact absurd rfl htext
    | cons c text => rw [hstr.head]; exact hstr.ne_zero
  have his := is_foldl_note htext names.commands
  have hms : ∀ x ∈ matching text names.commands, text <+: x ∧ 0 ∉ x := fun x hx =>
    ⟨mem_matching hx, names.zero_not_mem_commands (mem_filter.mp hx).1⟩
  refine ⟨putCommon mem (names.commands.foldl (Found.note text) .nothing), ?_, ?_, ?_, ?_⟩
  · rw [mshAutoComplete, if_neg hfirst, cString_eq hstr hlen, Option.map_some, foldl_noteCommand]
  · intro i hi
    rcases eq_or_ne (matching text names.commands) [] with hnil | hne
    · rw [putCommon_nil (hnil ▸ his)]
    · exact (putCommon_padded hpadded his hne hms hroom).2 i hi
  · intro hnil
    exact putCommon_nil (hnil ▸ his)
  · intro hne
    exact ⟨(putCommon_padded hpadded his hne hms hroom).1, fun t =>
      ⟨fun h _ hx => h.trans (commonPrefix_isPrefix hx), prefix_commonPrefix hne⟩⟩

/-- `l`, for the commands `list_fd` and `list_mem`. -/
theorem command_completion_sample :
    ∃ names mem', names.commands = [ascii "list_fd", ascii "list_mem"] ∧
      mshAutoComplete names 80 (fun i => (ascii "l").getD i 0) =
        some ([ascii "list_fd\n", ascii "list_mem\n"], mem') ∧
      Padded mem' 80 (ascii "list_") := by
  have hpadded : Padded (fun i => (ascii "l").getD i 0) 80 (ascii "l") := fun _ _ => rfl
  obtain ⟨mem', hresult, -, -, hline⟩ := command_completion
    ⟨[⟨cmdMark ++ ascii "list_fd", by decide⟩, ⟨ascii "list", by decide⟩,
      ⟨cmdMark ++ ascii "list_mem", by decide⟩], [], [], []⟩
    (show ascii "l" ≠ [] by decide) (by decide) (by decide) hpadded (by decide)
  exact ⟨_, mem', rfl, hresult, (hline (by decide)).1⟩

end NoDfs

end RtThread.Shell
