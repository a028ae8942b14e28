import Mathlib.Order.Basic

/-!
# Files as arrays of bytes

A file has a size, a position, and the bytes that were written to it.  What nobody has written is not known, and a file
that is cut off forgets what was behind the end.
-/

structure ByteFile (β : Type) where
  size : Nat
  pos : Nat
  byte : Nat → Option β
  bound : ∀ i x, byte i = some x → i < size

namespace ByteFile

variable {β : Type} {a : ByteFile β} {n i : Nat} {data : Nat → β} {x : β}

def seek (a : ByteFile β) (pos : Nat) : ByteFile β := { a with pos := pos }

/-- The number of bytes that can be read. -/
def count (a : ByteFile β) (n : Nat) : Nat := min n (a.size - a.pos)

def read (a : ByteFile β) (n : Nat) : ByteFile β := { a with pos := a.pos + a.count n }

/-- The file is at least so long. -/
def extend (a : ByteFile β) (n : Nat) : ByteFile β where
  size := max a.size n
  pos := a.pos
  byte := a.byte
  bound i x h := Nat.lt_of_lt_of_le (a.bound i x h) (Nat.le_max_left ..)

def truncate (a : ByteFile β) (n : Nat) : ByteFile β where
  size := n
  pos := a.pos
  byte i := if i < n then a.byte i else none
  bound i x h := by
    split at h
    · assumption
    · cases h

/-- The bytes are put at the position, and the file gets longer if it has to. -/
def write (a : ByteFile β) (n : Nat) (data : Nat → β) : ByteFile β where
  size := max a.size (a.pos + n)
  pos := a.pos + n
  byte i := if a.pos ≤ i ∧ i < a.pos + n then some (data (i - a.pos)) else a.byte i
  bound i x h := by
    split at h
    · omega
    · have hlt := a.bound i x h
      omega

theorem count_le : a.count n ≤ n := Nat.min_le_left ..

theorem pos_add_count (h : a.pos ≤ a.size) : a.pos + a.count n ≤ a.size := by
  unfold count
  omega

theorem count_of_size_le (h : a.size ≤ a.pos) : a.count n = 0 := by
  unfold count
  omega

/-- Elsewhere everything is as it was. -/
theorem byte_write_of_not (h : ¬(a.pos ≤ i ∧ i < a.pos + n)) : (a.write n data).byte i = a.byte i := if_neg h

end ByteFile
