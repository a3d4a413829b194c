import FrameworkHacks.Library.Memory

/-!
# NOR flash

Erasing sets every bit of a range; programming can only clear bits, so it stores the bitwise AND of
what was there and the new data. Only on an erased range is programming a copy (`program_erase`).

`NorOp` is one such operation, and a list of them a history. What a history leaves at an address does not
need the states in between: it is the AND of the bytes written there since the address was last erased,
and each operation keeps this (`byteAfter_append`).
-/

namespace Effects

namespace Mem

/-- `SetMem(m + start, n, v)`. -/
def fill (m : Mem) (start n : Nat) (v : UInt8) : Mem := m.copy start (fun _ => v) n

/-- Erase `n` bytes. -/
def erase (m : Mem) (start n : Nat) : Mem := m.fill start n 0xFF

/-- Program the first `n` bytes of `src` at `start`. -/
def program (m : Mem) (start : Nat) (src : Mem) (n : Nat) : Mem :=
  m.copy start (fun i => m (start + i) &&& src i) n

variable (m src : Mem) {start n i : Nat}

theorem erase_in (h : i < n) : m.erase start n (start + i) = 0xFF := by
  rw [erase, fill, copy_in _ _ h]

theorem erase_out (h : i < start ∨ start + n ≤ i) : m.erase start n i = m i := by
  rw [erase, fill, copy_out _ _ h]

theorem program_in (h : i < n) :
    m.program start src n (start + i) = m (start + i) &&& src i := copy_in m _ h

theorem program_out (h : i < start ∨ start + n ≤ i) : m.program start src n i = m i :=
  copy_out m _ h

@[simp] theorem program_zero (start : Nat) : m.program start src 0 = m := copy_zero m _ start

theorem program_congr {src' : Mem} (h : ∀ i < n, src i = src' i) :
    m.program start src n = m.program start src' n :=
  copy_congr fun i hi => by rw [h i hi]

theorem program_program (start n k : Nat) :
    (m.program start src n).program (start + n) (src.drop n) k = m.program start src (n + k) := by
  have hsecond : (m.program start src n).program (start + n) (src.drop n) k =
      (m.program start src n).copy (start + n) (Mem.drop (fun i => m (start + i) &&& src i) n) k := by
    apply copy_congr
    intro i _
    rw [program_out m src (.inr (by omega)), drop_apply, drop_apply, Nat.add_assoc]
  rw [hsecond, program, copy_copy, program]

theorem program_succ (start n : Nat) :
    m.program start src (n + 1) =
      (m.program start src n).set (start + n) (m (start + n) &&& src n) :=
  (copy_set m (fun i => m (start + i) &&& src i) start n).symm

/-- Programming an erased range copies. -/
theorem program_erase (start n : Nat) : (m.erase start n).program start src n = m.copy start src n := by
  funext i
  by_cases h : start ≤ i ∧ i < start + n
  · obtain ⟨k, rfl⟩ := Nat.exists_eq_add_of_le h.1
    have hk : k < n := by omega
    rw [program_in _ _ hk, erase_in m hk, copy_in m src hk]
    exact UInt8.neg_one_and
  · have hout : i < start ∨ start + n ≤ i := by omega
    rw [program_out _ _ hout, copy_out m src hout, erase_out m hout]

end Mem

/-! ### Histories -/

inductive NorOp
  | erase (start n : Nat)
  | program (start : Nat) (src : Mem) (n : Nat)

namespace NorOp

def apply (m : Mem) : NorOp → Mem
  | .erase start n => m.erase start n
  | .program start src n => m.program start src n

/-- The operation erases the byte at `i`. -/
def erases (i : Nat) : NorOp → Bool
  | .erase start n => start ≤ i && i < start + n
  | .program .. => false

/-- The byte the operation writes at `i`. -/
def writes (i : Nat) : NorOp → Option UInt8
  | .erase .. => none
  | .program start src n => if start ≤ i ∧ i < start + n then some (src (i - start)) else none

/-- What is left of a history after its last operation that erases the byte at `i`. -/
def sinceErase (i : Nat) (history : List NorOp) : List NorOp :=
  (history.reverse.takeWhile fun op => !op.erases i).reverse

/-- The AND of 0xFF and all bytes written at `i` since it was last erased. -/
def byteAfter (history : List NorOp) (i : Nat) : UInt8 :=
  ((sinceErase i history).filterMap (writes i)).foldl (· &&& ·) 0xFF

theorem sinceErase_append (i : Nat) (history : List NorOp) (op : NorOp) :
    sinceErase i (history ++ [op]) = if op.erases i then [] else sinceErase i history ++ [op] := by
  unfold sinceErase
  rw [List.reverse_append, List.reverse_singleton, List.singleton_append, List.takeWhile_cons]
  cases op.erases i with
  | true => rfl
  | false => exact List.reverse_cons

theorem byteAfter_append (history : List NorOp) (op : NorOp) (m : Mem) (i : Nat)
    (h : m i = byteAfter history i) : op.apply m i = byteAfter (history ++ [op]) i := by
  rw [byteAfter, sinceErase_append]
  cases op with
  | erase start n =>
    by_cases hin : start ≤ i ∧ i < start + n
    · obtain ⟨k, rfl⟩ := Nat.exists_eq_add_of_le hin.1
      rw [if_pos (by simpa [erases] using hin), apply, Mem.erase_in m (by omega)]
      rfl
    · rw [if_neg (by simpa [erases] using hin), List.filterMap_append, List.foldl_append, ← byteAfter, ← h,
        apply, Mem.erase_out m (by omega)]
      rfl
  | program start src n =>
    rw [if_neg (by simp [erases]), List.filterMap_append, List.foldl_append, ← byteAfter, ← h]
    by_cases hin : start ≤ i ∧ i < start + n
    · obtain ⟨k, rfl⟩ := Nat.exists_eq_add_of_le hin.1
      rw [apply, Mem.program_in m src (by omega)]
      simp [writes, hin.2]
    · rw [apply, Mem.program_out m src (by omega)]
      simp [writes, hin]

end NorOp

end Effects
