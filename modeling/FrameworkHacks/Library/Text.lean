import FrameworkHacks.Library.Memory
import Mathlib.Data.List.TakeWhile

/-!
# Strings in memory

`m.text n` is the string at `m` as far as the first `n` bytes show it: the bytes before the first NUL.
-/

namespace Effects

namespace Mem

def text (m : Mem) (n : Nat) : List UInt8 := (m.toList n).takeWhile (· ≠ 0)

@[simp] theorem toList_zero (m : Mem) : m.toList 0 = [] := rfl

theorem toList_succ (m : Mem) (n : Nat) : m.toList (n + 1) = m 0 :: (m.drop 1).toList n := by
  rw [toList, List.range_succ_eq_map, List.map_cons, List.map_map]
  congr 1
  exact List.map_congr_left fun i _ => congrArg m (Nat.add_comm i 1)

theorem drop_drop (m : Mem) (j k : Nat) : (m.drop j).drop k = m.drop (j + k) :=
  funext fun i => by rw [drop_apply, drop_apply, drop_apply, Nat.add_assoc]

theorem toList_drop_succ (m : Mem) (k n : Nat) :
    (m.drop k).toList (n + 1) = m k :: (m.drop (k + 1)).toList n := by
  rw [toList_succ, drop_drop, drop_apply, Nat.add_zero]

theorem toList_take (m : Mem) {k n : Nat} (h : k ≤ n) : (m.toList n).take k = m.toList k := by
  rw [toList, ← List.map_take, List.take_range, Nat.min_eq_left h, toList]

@[simp] theorem text_zero (m : Mem) : m.text 0 = [] := rfl

theorem text_drop_succ (m : Mem) (k n : Nat) :
    (m.drop k).text (n + 1) = if m k = 0 then [] else m k :: (m.drop (k + 1)).text n := by
  rw [text, toList_drop_succ, List.takeWhile_cons]
  by_cases h : m k = 0 <;> simp [h, text]

/-- A string that is stored is read back, up to the bound. -/
theorem text_ofList {l : List UInt8} (hl : ∀ c ∈ l, c ≠ 0) (n : Nat) : (ofList l).text n = l.take n := by
  induction n generalizing l with
  | zero => simp
  | succ n ih =>
    have hstep := text_drop_succ (ofList l) 0 n
    rw [drop_zero] at hstep
    cases l with
    | nil => rw [hstep, if_pos (show ofList [] 0 = 0 from rfl), List.take_nil]
    | cons c rest =>
      have hrest : (ofList (c :: rest)).drop (0 + 1) = ofList rest := funext fun i => by
        simp [ofList, drop, Nat.add_comm 1 i]
      rw [hstep, hrest, ih fun d hd => hl d (List.mem_cons_of_mem c hd), if_neg, List.take_succ_cons]
      · rfl
      · exact hl c List.mem_cons_self

end Mem

end Effects
