import Mathlib.Algebra.Group.Nat.Defs
import FrameworkHacks.Library.Exec

/-!
# Byte memory

`Mem` is memory as seen from a pointer: byte `i` is what stands at offset `i`. `Buf` is an object of
known size in it: loads and stores through a `Buf` fault outside its bounds. Integers are stored
little-endian (`le16`, `le32`).
-/

namespace Effects

abbrev Mem := Nat → UInt8

namespace Mem

/-- The bytes of a list, and zeros after it. -/
def ofList (l : List UInt8) : Mem := fun i => l.getD i 0

/-- The first `n` bytes. -/
def toList (m : Mem) (n : Nat) : List UInt8 := (List.range n).map m

@[simp] theorem toList_length (m : Mem) (n : Nat) : (m.toList n).length = n := by simp [toList]

theorem ofList_toList (m : Mem) {n i : Nat} (hi : i < n) : ofList (m.toList n) i = m i := by
  simp [ofList, toList, hi]

theorem toList_congr {m m' : Mem} {n : Nat} (h : ∀ i < n, m i = m' i) : m.toList n = m'.toList n :=
  List.map_congr_left fun i hi => h i (List.mem_range.1 hi)

theorem toList_ofList (l : List UInt8) : (ofList l).toList l.length = l := by
  apply List.ext_getElem
  · simp
  · intro i _ hi
    simp [toList, ofList, hi]

/-- Memory as seen from the pointer `m + k`. -/
def drop (m : Mem) (k : Nat) : Mem := fun i => m (k + i)

@[simp] theorem drop_apply (m : Mem) (k i : Nat) : m.drop k i = m (k + i) := rfl

@[simp] theorem drop_zero (m : Mem) : m.drop 0 = m := funext fun i => by rw [drop_apply, Nat.zero_add]

theorem toList_add (m : Mem) (n k : Nat) : m.toList (n + k) = m.toList n ++ (m.drop n).toList k := by
  simp only [toList, List.range_add, List.map_append, List.map_map]
  rfl

/-- Store one byte. -/
def set (m : Mem) (i : Nat) (v : UInt8) : Mem := fun j => if j = i then v else m j

@[simp] theorem set_same (m : Mem) (i : Nat) (v : UInt8) : m.set i v i = v := by simp [set]

theorem set_ne (m : Mem) {i j : Nat} (v : UInt8) (h : j ≠ i) : m.set i v j = m j := by simp [set, h]

/-- `CopyMem(dst + at, src, n)`. -/
def copy (dst : Mem) (start : Nat) (src : Mem) (n : Nat) : Mem :=
  fun i => if start ≤ i ∧ i < start + n then src (i - start) else dst i

theorem copy_in (dst src : Mem) {start n i : Nat} (h : i < n) :
    dst.copy start src n (start + i) = src i := by
  simp [copy, h]

theorem copy_out (dst src : Mem) {start n i : Nat} (h : i < start ∨ start + n ≤ i) :
    dst.copy start src n i = dst i := by
  simp only [copy]
  rw [if_neg (by omega)]

@[simp] theorem copy_zero (dst src : Mem) (start : Nat) : dst.copy start src 0 = dst := by
  funext i
  exact copy_out dst src (by omega)

theorem copy_front (dst src : Mem) {n i : Nat} (h : i < n) : dst.copy 0 src n i = src i := by
  have hin : dst.copy 0 src n (0 + i) = src i := copy_in dst src h
  rwa [Nat.zero_add] at hin

theorem copy_congr {dst s t : Mem} {start n : Nat} (h : ∀ i < n, s i = t i) :
    dst.copy start s n = dst.copy start t n := by
  funext i
  simp only [copy]
  split
  · exact h _ (by omega)
  · rfl

/-- A copy may be made in two parts, the second one from its own source pointer. -/
theorem copy_copy (dst src : Mem) (start n k : Nat) :
    (dst.copy start src n).copy (start + n) (src.drop n) k = dst.copy start src (n + k) := by
  funext i
  simp only [copy, drop]
  by_cases h₁ : i < start + n
  · rw [if_neg (by omega)]
    by_cases h₂ : start ≤ i
    · rw [if_pos (by omega), if_pos (by omega)]
    · rw [if_neg (by omega), if_neg (by omega)]
  · by_cases h₂ : i < start + (n + k)
    · rw [if_pos (by omega), if_pos (by omega)]
      congr 1
      omega
    · rw [if_neg (by omega), if_neg (by omega), if_neg (by omega)]

theorem copy_set (dst src : Mem) (start n : Nat) :
    (dst.copy start src n).set (start + n) (src n) = dst.copy start src (n + 1) := by
  rw [← copy_copy]
  funext i
  simp only [set, copy, drop]
  by_cases h : i = start + n
  · subst h
    rw [if_pos rfl, if_pos (by omega)]
    congr 1
    omega
  · rw [if_neg h, if_neg (by omega : ¬(start + n ≤ i ∧ i < start + n + 1))]

/-- `m'` is `m` with the `n` bytes from `start` on replaced by the first bytes of `src`. -/
structure Replaced (m m' src : Mem) (start n : Nat) : Prop where
  inside : ∀ i < n, m' (start + i) = src i
  outside : ∀ j, j < start ∨ start + n ≤ j → m' j = m j

/-- A copy that goes on past `n` replaces `n` bytes if those it copies in excess are there already. -/
theorem replaced_copy_iff {m src : Mem} {start n k : Nat} (hk : n ≤ k) :
    Replaced m (m.copy start src k) src start n ↔ ∀ i, n ≤ i → i < k → src i = m (start + i) := by
  constructor
  · intro h i hn hi
    rw [← copy_in m src hi]
    exact h.outside _ (.inr (by omega))
  · intro h
    refine ⟨fun i hi => copy_in m src (by omega), fun j hj => ?_⟩
    by_cases hin : start ≤ j ∧ j < start + k
    · obtain ⟨i, rfl⟩ : ∃ i, j = start + i := ⟨j - start, by omega⟩
      rw [copy_in m src (by omega)]
      exact h i (by omega) (by omega)
    · exact copy_out m src (by omega)

/-- Store the bytes of a list at the front. -/
def overlay (m : Mem) (l : List UInt8) : Mem := m.copy 0 (ofList l) l.length

theorem overlay_lt (m : Mem) {l : List UInt8} {i : Nat} (h : i < l.length) :
    m.overlay l i = ofList l i := copy_front m (ofList l) h

/-- Store the bytes of a list from `start` on. -/
def patch (m : Mem) (start : Nat) (l : List UInt8) : Mem := m.copy start (ofList l) l.length

@[simp] theorem patch_nil (m : Mem) (start : Nat) : m.patch start [] = m := copy_zero m (ofList []) start

theorem patch_zero (m : Mem) (l : List UInt8) : m.patch 0 l = m.overlay l := rfl

theorem patch_singleton (m : Mem) (i : Nat) (v : UInt8) : m.patch i [v] = m.set i v := by
  funext j
  simp only [patch, copy, set, List.length_singleton]
  by_cases hj : j = i
  · rw [if_pos (by omega), if_pos hj, hj, Nat.sub_self]
    rfl
  · rw [if_neg (by omega), if_neg hj]

theorem patch_append (m : Mem) (start : Nat) (l l' : List UInt8) :
    (m.patch start l).patch (start + l.length) l' = m.patch start (l ++ l') := by
  unfold patch
  rw [List.length_append, ← copy_copy]
  congr 1
  · apply copy_congr
    intro i hi
    simp only [ofList, List.getD_eq_getElem?_getD]
    rw [List.getElem?_append_left hi]
  · funext i
    simp only [ofList, drop_apply, List.getD_eq_getElem?_getD]
    rw [List.getElem?_append_right (by omega), Nat.add_sub_cancel_left]

/-! ### Checksums -/

/-- The sum of the first `n` bytes, modulo 256. -/
def sum (m : Mem) : Nat → UInt8
  | 0 => 0
  | n + 1 => m.sum n + m n

theorem sum_congr {m m' : Mem} {n : Nat} (h : ∀ i < n, m i = m' i) : m.sum n = m'.sum n := by
  induction n with
  | zero => rfl
  | succ n ih => rw [sum, sum, ih fun i hi => h i (by omega), h n (by omega)]

theorem sum_set (m : Mem) (v : UInt8) {n i : Nat} (h : i < n) :
    (m.set i v).sum n = m.sum n - m i + v := by
  induction n with
  | zero => omega
  | succ n ih =>
    rw [sum, sum]
    by_cases hi : i = n
    · subst hi
      rw [set_same, sum_congr fun j hj => set_ne m v (by omega : j ≠ i)]
      grind
    · rw [ih (by omega), set_ne m v (by omega : n ≠ i)]
      grind

/-! ### Little-endian integers -/

def le16 (m : Mem) (i : Nat) : Nat := (m i).toNat + 256 * (m (i + 1)).toNat

def le32 (m : Mem) (i : Nat) : Nat := m.le16 i + 65536 * m.le16 (i + 2)

theorem le16_lt (m : Mem) (i : Nat) : m.le16 i < 65536 := by
  have h₀ := (m i).toNat_lt
  have h₁ := (m (i + 1)).toNat_lt
  simp only [le16]
  omega

theorem le32_lt (m : Mem) (i : Nat) : m.le32 i < 2 ^ 32 := by
  have hlow := m.le16_lt i
  have hhigh := m.le16_lt (i + 2)
  unfold le32
  omega

theorem le16_congr {m m' : Mem} {i j : Nat} (h₀ : m i = m' j) (h₁ : m (i + 1) = m' (j + 1)) :
    m.le16 i = m'.le16 j := by
  rw [le16, le16, h₀, h₁]

theorem le32_congr {m m' : Mem} {i j : Nat} (h : ∀ k < 4, m (i + k) = m' (j + k)) :
    m.le32 i = m'.le32 j := by
  rw [le32, le32, le16_congr (i := i) (j := j) (h 0 (by omega)) (h 1 (by omega)),
    le16_congr (h 2 (by omega)) (h 3 (by omega))]

/-- Byte `k` of a number. -/
def byteOf (v k : Nat) : UInt8 := UInt8.ofNat (v / 256 ^ k)

theorem byteOf_toNat (v k : Nat) : (byteOf v k).toNat = v / 256 ^ k % 256 := by
  simp [byteOf]

def le16Bytes (v : Nat) : List UInt8 := [byteOf v 0, byteOf v 1]

def le32Bytes (v : Nat) : List UInt8 := [byteOf v 0, byteOf v 1, byteOf v 2, byteOf v 3]

/-- Store a 16-bit number. -/
def set16 (m : Mem) (i v : Nat) : Mem := (m.set i (byteOf v 0)).set (i + 1) (byteOf v 1)

theorem le16_of_bytes {m : Mem} {i v : Nat} (h₀ : m i = byteOf v 0) (h₁ : m (i + 1) = byteOf v 1) :
    m.le16 i = v % 65536 := by
  rw [le16, h₀, h₁, byteOf_toNat, byteOf_toNat]
  simp only [Nat.pow_zero, Nat.div_one, Nat.pow_one]
  omega

theorem le32_of_bytes {m : Mem} {i v : Nat} (h : ∀ k < 4, m (i + k) = byteOf v k) :
    m.le32 i = v % 4294967296 := by
  have h₀ := h 0 (by omega)
  have h₁ := h 1 (by omega)
  have h₂ := h 2 (by omega)
  have h₃ := h 3 (by omega)
  rw [Nat.add_zero] at h₀
  rw [le32, le16, le16, h₀, h₁, h₂, h₃]
  simp only [byteOf_toNat, Nat.pow_zero, Nat.div_one]
  omega

theorem le32_ofList (v : Nat) (pre post : List UInt8) :
    (ofList (pre ++ (le32Bytes v ++ post))).le32 pre.length = v % 4294967296 := by
  apply le32_of_bytes
  intro k hk
  simp only [ofList, le32Bytes, List.getD_eq_getElem?_getD]
  rw [List.getElem?_append_right (by omega), Nat.add_sub_cancel_left]
  match k, hk with
  | 0, _ => rfl
  | 1, _ => rfl
  | 2, _ => rfl
  | 3, _ => rfl

end Mem

/-! ### Objects of known size -/

/-- An object in memory: its bytes, and its size. -/
structure Buf where
  bytes : Mem
  size : Nat

namespace Buf

variable {E : Signature}

def load (b : Buf) (i : Nat) : Prog E UInt8 :=
  if i < b.size then pure (b.bytes i) else .fault

def store (b : Buf) (i : Nat) (v : UInt8) : Prog E Buf :=
  if i < b.size then pure { b with bytes := b.bytes.set i v } else .fault

/-- `CopyMem(b + start, src, n)`. -/
def copyIn (b : Buf) (start : Nat) (src : Mem) (n : Nat) : Prog E Buf :=
  if start + n ≤ b.size then pure { b with bytes := b.bytes.copy start src n } else .fault

/-- The `n` bytes at `b + start`, as the source of a `CopyMem`. -/
def copyOut (b : Buf) (start n : Nat) : Prog E Mem :=
  if start + n ≤ b.size then pure (b.bytes.drop start) else .fault

theorem load_of_lt {b : Buf} {i : Nat} (h : i < b.size) :
    (b.load i : Prog E UInt8) = pure (b.bytes i) := if_pos h

theorem store_of_lt {b : Buf} {i : Nat} (v : UInt8) (h : i < b.size) :
    (b.store i v : Prog E Buf) = pure { b with bytes := b.bytes.set i v } := if_pos h

theorem store_of_ge {b : Buf} {i : Nat} (v : UInt8) (h : b.size ≤ i) :
    (b.store i v : Prog E Buf) = .fault := if_neg (by omega)

theorem copyIn_of_le {b : Buf} {start n : Nat} (src : Mem) (h : start + n ≤ b.size) :
    (b.copyIn start src n : Prog E Buf) = pure { b with bytes := b.bytes.copy start src n } :=
  if_pos h

theorem copyOut_of_le {b : Buf} {start n : Nat} (h : start + n ≤ b.size) :
    (b.copyOut start n : Prog E Mem) = pure (b.bytes.drop start) := if_pos h

/-- The object with the bytes of a list stored from `start` on. -/
def patch (b : Buf) (start : Nat) (l : List UInt8) : Buf := ⟨b.bytes.patch start l, b.size⟩

@[simp] theorem patch_nil (b : Buf) (start : Nat) : b.patch start [] = b := by
  rw [patch, Mem.patch_nil]

theorem patch_append (b : Buf) (start : Nat) (l l' : List UInt8) :
    (b.patch start l).patch (start + l.length) l' = b.patch start (l ++ l') := by
  simp only [patch, Mem.patch_append]

theorem run_copyIn {b b' : Buf} {start n : Nat} {src : Mem} {t : Trace E}
    (h : Run (b.copyIn start src n) t (.done b')) :
    t = [] ∧ start + n ≤ b.size ∧ b' = { b with bytes := b.bytes.copy start src n } := by
  unfold copyIn at h
  split at h
  · exact ⟨h.pure_done.1, ‹_›, h.pure_done.2⟩
  · cases h

section Holds

variable {H : Halt → Prop} {G P : Event E → Prop} {b : Buf} {start n : Nat}

theorem holds_copyIn {Q : Buf → Prop} {src : Mem} (hH : H .fault)
    (hQ : start + n ≤ b.size → Q { b with bytes := b.bytes.copy start src n }) :
    Prog.Holds H G P Q (b.copyIn start src n) := by
  unfold copyIn
  split
  · exact hQ ‹_›
  · exact hH

theorem holds_copyOut {Q : Mem → Prop} (hH : H .fault)
    (hQ : start + n ≤ b.size → Q (b.bytes.drop start)) :
    Prog.Holds H G P Q (b.copyOut start n) := by
  unfold copyOut
  split
  · exact hQ ‹_›
  · exact hH

end Holds

end Buf

end Effects
