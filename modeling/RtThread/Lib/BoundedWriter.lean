import RtThread.Lib.Cells

/-!
# Writing to a buffer that may be too small

A program writes one character after the other; those behind the last cell of its buffer are
counted but not stored. A `Writer` is what the program sees of this: whether the next
character will be stored, and the writing of it. `buffer` is the writer to memory, and
`listing` keeps all that is written in a list.

* `holds_puts`: the buffer holds the beginning of what has been written.
* `holds_close`: with a terminator in its last cell, or behind what has been written.
* `Stored.puts`, `Stored.fits`: the buffer follows the list.
-/

namespace BoundedWriter

open Cells List Function Nat

structure Writer (σ β : Type*) where
  fits : σ → Bool
  put : σ → β → σ

variable {σ β : Type*}

namespace Writer

variable (w : Writer σ β)

def puts (o : σ) (cs : List β) : σ := cs.foldl w.put o

@[simp] theorem puts_nil (o : σ) : w.puts o [] = o := rfl

theorem puts_cons (o : σ) (c : β) (cs : List β) : w.puts o (c :: cs) = w.puts (w.put o c) cs := rfl

theorem puts_append (o : σ) (cs cs' : List β) : w.puts o (cs ++ cs') = w.puts (w.puts o cs) cs' :=
  foldl_append

end Writer

/-- All that is written, where `fits` says which characters would be stored. -/
def listing (fits : ℕ → Bool) : Writer (List β) β where
  fits l := fits l.length
  put l c := l ++ [c]

theorem listing_puts (fits : ℕ → Bool) (l cs : List β) : (listing fits).puts l cs = l ++ cs := by
  induction cs generalizing l with
  | nil => exact (append_nil l).symm
  | cons c cs ih =>
    rw [Writer.puts_cons, ih]
    exact append_assoc l [c] cs

/-! ## The buffer -/

/-- Memory, and where the next character goes. -/
structure Buffer (β : Type*) where
  mem : ℕ → β
  str : ℕ

/-- The writer to the cells up to `last`. -/
def buffer (last : ℕ) : Writer (Buffer β) β where
  fits b := b.str ≤ last
  put b c := ⟨if b.str ≤ last then update b.mem b.str c else b.mem, b.str + 1⟩

/-- Write the terminator `z`. -/
def Buffer.close (b : Buffer β) (last : ℕ) (z : β) : ℕ → β :=
  if b.str ≤ last then update b.mem b.str z else update b.mem last z

variable {last buf : ℕ} {mem : ℕ → β} {cs : List β} {b : Buffer β} {l : List β}

theorem puts_str (b : Buffer β) (cs : List β) :
    ((buffer last).puts b cs).str = b.str + cs.length := by
  induction cs generalizing b with
  | nil => rfl
  | cons c cs ih =>
    rw [Writer.puts_cons, ih]
    exact add_right_comm ..

/-- The cells before the ones that are written are left alone. -/
theorem puts_mem_before (b : Buffer β) (cs : List β) {a : ℕ} (ha : a < b.str) :
    ((buffer last).puts b cs).mem a = b.mem a := by
  induction cs generalizing b with
  | nil => rfl
  | cons c cs ih =>
    rw [Writer.puts_cons, ih _ (lt_succ_of_lt ha)]
    simp only [buffer]
    split_ifs
    · exact update_of_ne (by omega) ..
    · rfl

theorem holds_puts (mem : ℕ → β) (buf last : ℕ) (cs : List β) :
    Holds ((buffer last).puts ⟨mem, buf⟩ cs).mem buf (cs.take (last + 1 - buf)) := by
  induction cs generalizing mem buf with
  | nil => rw [take_nil]; trivial
  | cons c cs ih =>
    by_cases h : buf ≤ last
    · have hput : (buffer last).put ⟨mem, buf⟩ c = ⟨update mem buf c, buf + 1⟩ := by
        simp only [buffer, if_pos h]
      have hlen : last + 1 - buf = last + 1 - (buf + 1) + 1 := by omega
      rw [Writer.puts_cons, hput, hlen]
      refine ⟨?_, ih _ _⟩
      exact (puts_mem_before _ _ (lt_succ_self buf)).trans (update_self ..)
    · rw [Nat.sub_eq_zero_of_le (by omega)]
      trivial

/-- The buffer holds as much as there is room for, and the terminator. -/
theorem holds_close (mem : ℕ → β) (h : buf ≤ last) (z : β) :
    Holds (((buffer last).puts ⟨mem, buf⟩ cs).close last z) buf (cs.take (last - buf) ++ [z]) := by
  have hholds := holds_puts mem buf last cs
  unfold Buffer.close
  rw [puts_str]
  dsimp only
  split_ifs with hfits
  · rw [take_of_length_le (by omega)] at hholds ⊢
    exact hholds.put z
  · have hlen : (cs.take (last - buf)).length = last - buf := by
      rw [length_take]
      omega
    have hlast : last = buf + (cs.take (last - buf)).length := by omega
    have hpre : Holds ((buffer last).puts ⟨mem, buf⟩ cs).mem buf (cs.take (last - buf)) := by
      have hsplit : cs.take (last + 1 - buf) =
          cs.take (last - buf) ++ (cs.drop (last - buf)).take 1 := by
        rw [← take_add]
        congr 1
        omega
      rw [hsplit] at hholds
      exact (holds_append.mp hholds).1
    have hput := hpre.put z
    rwa [← hlast] at hput

/-- `b` is the buffer after `l` has been written. -/
def Stored (mem : ℕ → β) (buf last : ℕ) (b : Buffer β) (l : List β) : Prop :=
  b = (buffer last).puts ⟨mem, buf⟩ l

theorem Stored.puts (h : Stored mem buf last b l) (cs : List β) :
    Stored mem buf last ((buffer last).puts b cs) (l ++ cs) := by
  rw [Stored, h, Writer.puts_append]

theorem Stored.fits (h : Stored mem buf last b l) (hbuf : buf ≤ last) :
    (buffer last).fits b = (listing fun n => n < last + 1 - buf).fits l := by
  have hstr : b.str = buf + l.length := by rw [h, puts_str]
  exact decide_eq_decide.mpr (by omega)

end BoundedWriter
