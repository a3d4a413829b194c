import FrameworkHacks.Fmap
import FrameworkHacks.Library.Search
import FrameworkHacks.Library.Text

/-!
# Reading a flash map in a buffer of known size

The functions of FmapLib check no bounds. On a buffer they therefore either find what they find in
plain memory, or leave the buffer; each lemma says which.
-/

namespace FrameworkHacks

open Effects

variable {E : Signature}

/-! ### Numbers -/

theorem loadLe64_of_le {b : Buf} {i : Nat} (h : i + 8 ≤ b.size) :
    loadLe64 (m := Prog E) b.load i = pure (loadLe64 (m := Id) b.bytes i) := by
  have hfold : ∀ (l : List Nat) (v : Nat), (∀ k ∈ l, k < 8) →
      l.foldlM (m := Prog E) (fun v k => do return v + (← b.load (i + k)).toNat * 256 ^ k) v =
        pure (l.foldlM (m := Id) (fun v k => v + (b.bytes (i + k)).toNat * 256 ^ k) v) := by
    intro l
    induction l with
    | nil => intro v _; rfl
    | cons k l ih =>
      intro v hl
      have hk := hl k List.mem_cons_self
      rw [List.foldlM_cons, Buf.load_of_lt (by omega), pure_bind, pure_bind,
        ih _ fun j hj => hl j (List.mem_cons_of_mem k hj)]
      rfl
  exact hfold (List.range 8) 0 fun k hk => List.mem_range.1 hk

theorem loadLe16_eq (b : Buf) (i : Nat) :
    loadLe16 (m := Prog E) b.load i = if i + 2 ≤ b.size then pure (b.bytes.le16 i) else .fault := by
  unfold loadLe16
  by_cases hlow : i < b.size
  · rw [Buf.load_of_lt hlow, pure_bind]
    by_cases hhigh : i + 1 < b.size
    · rw [Buf.load_of_lt hhigh, pure_bind, if_pos (by omega)]
      rfl
    · rw [Buf.load, if_neg hhigh, if_neg (by omega)]
      rfl
  · rw [Buf.load, if_neg hlow, if_neg (by omega)]
    rfl

theorem loadLe32_eq (b : Buf) (i : Nat) :
    loadLe32 (m := Prog E) b.load i = if i + 4 ≤ b.size then pure (b.bytes.le32 i) else .fault := by
  unfold loadLe32
  rw [loadLe16_eq]
  by_cases hlow : i + 2 ≤ b.size
  · rw [if_pos hlow, pure_bind, loadLe16_eq]
    by_cases hhigh : i + 2 + 2 ≤ b.size
    · rw [if_pos hhigh, if_pos (by omega)]
      rfl
    · rw [if_neg hhigh, if_neg (by omega)]
      rfl
  · rw [if_neg hlow, if_neg (by omega)]
    rfl

theorem loadLe32_of_le {b : Buf} {i : Nat} (h : i + 4 ≤ b.size) :
    loadLe32 (m := Prog E) b.load i = pure (b.bytes.le32 i) := by
  rw [loadLe32_eq, if_pos h]

/-! ### The signature -/

/-- The quadword at `i`. -/
def quadword (m : Mem) (i : Nat) : Nat := loadLe64 (m := Id) m i

theorem quadword_congr {m m' : Mem} {i : Nat} (h : ∀ k < 8, m (i + k) = m' (i + k)) : quadword m i = quadword m' i := by
  have hfold : ∀ (l : List Nat) (v : Nat), (∀ k ∈ l, k < 8) →
      l.foldlM (m := Id) (fun v k => v + (m (i + k)).toNat * 256 ^ k) v =
        l.foldlM (m := Id) (fun v k => v + (m' (i + k)).toNat * 256 ^ k) v := by
    intro l
    induction l with
    | nil => exact fun _ _ => rfl
    | cons k l ih =>
      intro v hl
      rw [List.foldlM_cons, List.foldlM_cons, h k (hl k List.mem_cons_self)]
      exact ih _ fun j hj => hl j (List.mem_cons_of_mem k hj)
  exact hfold (List.range 8) 0 fun k hk => List.mem_range.1 hk

theorem scanMem64_succ (m : Mem) (value i n : Nat) : scanMem64 (m := Id) m value i (n + 1) =
    if quadword m i = value then some i else scanMem64 (m := Id) m value (i + 8) n := rfl

theorem scanMem64_of_le (b : Buf) (value : Nat) {i n : Nat} (h : i + 8 * n ≤ b.size) :
    scanMem64 (m := Prog E) b.load value i n = pure (scanMem64 (m := Id) b.bytes value i n) := by
  induction n generalizing i with
  | zero => rfl
  | succ n ih =>
    have hload : loadLe64 (m := Prog E) b.load i = pure (quadword b.bytes i) :=
      loadLe64_of_le (by omega)
    rw [scanMem64_succ, scanMem64, hload, pure_bind]
    by_cases hmatch : quadword b.bytes i = value
    · rw [if_pos hmatch, if_pos hmatch]
    · rw [if_neg hmatch, if_neg hmatch]
      exact ih (by omega)

theorem scanMem64_eq (m : Mem) (value i n : Nat) :
    scanMem64 (m := Id) m value i n = searchFrom (quadword m · = value) 8 i n := by
  induction n generalizing i with
  | zero => rfl
  | succ n ih => rw [scanMem64_succ, searchFrom, ih]

theorem getImageFlashMap_of_le {b : Buf} {length : Nat} (h : length ≤ b.size) :
    getImageFlashMap (m := Prog E) b.load length = pure (getImageFlashMap (m := Id) b.bytes length) :=
  scanMem64_of_le b fmapSignature (by omega)

/-! ### Names -/

theorem asciiStrnCmpFrom_eq_zero (a b : Mem) (i n : Nat) :
    asciiStrnCmpFrom (m := Id) a b i n = (0 : Int) ↔
      (a.drop i).text (n + 1) = (b.drop i).text (n + 1) := by
  have hsub (x y : UInt8) : (x.toNat : Int) - y.toNat = 0 ↔ x = y := by
    rw [← UInt8.toNat_inj]
    omega
  induction n generalizing i with
  | zero =>
    have hstep : asciiStrnCmpFrom (m := Id) a b i 0 = ((a i).toNat : Int) - ((b i).toNat : Int) := rfl
    rw [hstep, hsub, Mem.text_drop_succ a i 0, Mem.text_drop_succ b i 0]
    by_cases ha : a i = 0 <;> by_cases hb : b i = 0 <;> simp [ha, hb, eq_comm]
  | succ n ih =>
    have hstep : asciiStrnCmpFrom (m := Id) a b i (n + 1) =
        if a i ≠ 0 ∧ b i ≠ 0 ∧ a i = b i then asciiStrnCmpFrom (m := Id) a b (i + 1) n
        else ((a i).toNat : Int) - ((b i).toNat : Int) := rfl
    rw [hstep, Mem.text_drop_succ a i (n + 1), Mem.text_drop_succ b i (n + 1)]
    split
    · rename_i h
      rw [if_neg h.1, if_neg h.2.1, h.2.2, List.cons.injEq]
      exact (ih (i + 1)).trans (and_iff_right rfl).symm
    · rename_i h
      rw [hsub]
      by_cases ha : a i = 0 <;> by_cases hb : b i = 0
      · simp [ha, hb]
      · simpa [ha, hb] using Ne.symm hb
      · simp [ha, hb]
      · have hne : a i ≠ b i := fun heq => h ⟨ha, hb, heq⟩
        simp [ha, hb, hne]

/-- How many characters of `l` memory begins with. -/
def sharedPrefix (m : Mem) : List UInt8 → Nat
  | [] => 0
  | c :: l => if m 0 = c then sharedPrefix (m.drop 1) l + 1 else 0

theorem sharedPrefix_le (m : Mem) (l : List UInt8) : sharedPrefix m l ≤ l.length := by
  induction l generalizing m with
  | nil => exact Nat.le_refl 0
  | cons c l ih =>
    rw [sharedPrefix]
    split
    · exact Nat.succ_le_succ (ih _)
    · exact Nat.zero_le _

theorem sharedPrefix_drop (m : Mem) {l : List UInt8} (hl : ∀ c ∈ l, c ≠ 0) (k i : Nat) :
    sharedPrefix (m.drop k) (l.drop i) =
      if Mem.ofList l i ≠ 0 ∧ m k ≠ 0 ∧ Mem.ofList l i = m k then
        sharedPrefix (m.drop (k + 1)) (l.drop (i + 1)) + 1
      else 0 := by
  cases hrest : l.drop i with
  | nil =>
    have hlen := List.drop_eq_nil_iff.1 hrest
    have hzero : Mem.ofList l i = 0 := by
      simp [Mem.ofList, List.getD_eq_getElem?_getD, List.getElem?_eq_none hlen]
    simp [sharedPrefix, hzero]
  | cons c rest =>
    have hhead : Mem.ofList l i = c := by
      have := congrArg (fun r => r.getD 0 0) hrest
      simpa [Mem.ofList, List.getD_eq_getElem?_getD, List.getElem?_drop] using this
    have htail : l.drop (i + 1) = rest := by
      have := congrArg List.tail hrest
      rwa [List.tail_drop] at this
    have hc : c ≠ 0 := hl c (List.mem_of_mem_drop (hrest ▸ List.mem_cons_self))
    rw [sharedPrefix, hhead, htail, Mem.drop_apply, Nat.add_zero, Mem.drop_drop]
    by_cases heq : m k = c
    · rw [if_pos heq, if_pos ⟨hc, heq ▸ hc, heq.symm⟩]
    · rw [if_neg heq, if_neg fun h => heq h.2.2.symm]

/-- What `AsciiStrnCmp` makes of two characters that end the comparison. -/
def charDifference (x y : UInt8) : Int := (x.toNat : Int) - y.toNat

theorem asciiStrnCmpFrom_succ (f s : Mem) (i n : Nat) : asciiStrnCmpFrom (m := Id) f s i (n + 1) =
    if f i ≠ 0 ∧ s i ≠ 0 ∧ f i = s i then asciiStrnCmpFrom (m := Id) f s (i + 1) n
    else charDifference (f i) (s i) := rfl

/-- A comparison with a string stays inside the buffer exactly if the buffer holds the characters
up to the first that differs. -/
theorem asciiStrnCmpFrom_name (b : Buf) (a : Nat) {l : List UInt8} (hl : ∀ c ∈ l, c ≠ 0) {i n : Nat}
    (hn : (l.drop i).length ≤ n) :
    asciiStrnCmpFrom (m := Prog E) (fun j => pure (Mem.ofList l j)) (fun j => b.load (a + j)) i n =
      if a + i + sharedPrefix (b.bytes.drop (a + i)) (l.drop i) < b.size then
        pure (asciiStrnCmpFrom (m := Id) (Mem.ofList l) (b.bytes.drop a) i n)
      else .fault := by
  have hout : ∀ j, ¬ j < b.size → (b.load j : Prog E UInt8) = .fault := fun _ h => if_neg h
  induction n generalizing i with
  | zero =>
    have hnil : l.drop i = [] := List.length_eq_zero_iff.1 (by omega)
    rw [asciiStrnCmpFrom, pure_bind, hnil, sharedPrefix, Nat.add_zero]
    by_cases hin : a + i < b.size
    · rw [Buf.load_of_lt hin, pure_bind, if_pos hin]
      rfl
    · rw [hout _ hin, if_neg hin]
      rfl
  | succ n ih =>
    rw [asciiStrnCmpFrom, pure_bind, asciiStrnCmpFrom_succ, Mem.drop_apply]
    by_cases hin : a + i < b.size
    · rw [Buf.load_of_lt hin, pure_bind, sharedPrefix_drop b.bytes hl]
      by_cases hsame : Mem.ofList l i ≠ 0 ∧ b.bytes (a + i) ≠ 0 ∧ Mem.ofList l i = b.bytes (a + i)
      · have hsum : ∀ k, a + i + (k + 1) = a + (i + 1) + k := by omega
        rw [if_pos hsame, if_pos hsame, if_pos hsame, hsum, ih (by simp only [List.length_drop] at hn ⊢; omega)]
        rfl
      · rw [if_neg hsame, if_neg hsame, if_neg hsame, if_pos (by omega)]
        rfl
    · rw [hout _ hin, if_neg (by omega)]
      rfl

theorem asciiStrnCmpFrom_of_le (f : Mem) (b : Buf) (a : Nat) {i n : Nat} (h : a + i + n < b.size) :
    asciiStrnCmpFrom (m := Prog E) (fun j => pure (f j)) (fun j => b.load (a + j)) i n =
      pure (asciiStrnCmpFrom (m := Id) f (b.bytes.drop a) i n) := by
  induction n generalizing i with
  | zero =>
    rw [asciiStrnCmpFrom, pure_bind, Buf.load_of_lt (by omega), pure_bind]
    rfl
  | succ n ih =>
    rw [asciiStrnCmpFrom, pure_bind, Buf.load_of_lt (by omega), pure_bind, asciiStrnCmpFrom_succ,
      Mem.drop_apply]
    by_cases hsame : f i ≠ 0 ∧ b.bytes (a + i) ≠ 0 ∧ f i = b.bytes (a + i)
    · rw [if_pos hsame, if_pos hsame]
      exact ih (by omega)
    · rw [if_neg hsame, if_neg hsame]
      rfl

/-! ### Areas -/

/-- The header of area `i`, the first one being at `areas`. -/
def areaHeader (areas i : Nat) : Nat := areas + sizeofFmapAreaHeader * i

theorem areaHeader_succ (areas i : Nat) :
    areaHeader areas (i + 1) = areaHeader (areas + sizeofFmapAreaHeader) i := by
  unfold areaHeader
  rw [Nat.mul_succ]
  omega

/-- The name in the area header at `area`. -/
def areaName (m : Mem) (area : Nat) : List UInt8 := (m.drop (area + 8)).text fmapNamelen

/-- Area `i` of `n` is looked at by a search for `l`. -/
def Searched (m : Mem) (l : List UInt8) (areas n i : Nat) : Prop :=
  i < n ∧ ∀ j < i, areaName m (areaHeader areas j) ≠ l

theorem searched_zero (m : Mem) (l : List UInt8) (areas n : Nat) : Searched m l areas (n + 1) 0 :=
  ⟨Nat.succ_pos n, fun _ hj => absurd hj (Nat.not_lt_zero _)⟩

theorem searched_succ {m : Mem} {l : List UInt8} {areas n i : Nat} :
    Searched m l areas (n + 1) (i + 1) ↔
      areaName m areas ≠ l ∧ Searched m l (areas + sizeofFmapAreaHeader) n i := by
  constructor
  · intro h
    refine ⟨h.2 0 (by omega), by have := h.1; omega, fun j hj => ?_⟩
    rw [← areaHeader_succ]
    exact h.2 (j + 1) (by omega)
  · intro h
    refine ⟨Nat.succ_lt_succ h.2.1, fun j hj => ?_⟩
    cases j with
    | zero => exact h.1
    | succ j =>
      rw [areaHeader_succ]
      exact h.2.2 j (by omega)

/-- As much of the name at `area` as a search for `l` compares is before `size`. -/
def NameFits (m : Mem) (size : Nat) (l : List UInt8) (area : Nat) : Prop :=
  area + 8 + sharedPrefix (m.drop (area + 8)) l < size

instance (m : Mem) (size : Nat) (l : List UInt8) (area : Nat) : Decidable (NameFits m size l area) :=
  inferInstanceAs (Decidable (area + 8 + sharedPrefix (m.drop (area + 8)) l < size))

/-- `AsciiStrnCmp(AreaName, FmapAreas[i].Name, FMAP_NAMELEN)` for the header at `area`. -/
def compareName (m : Mem) (l : List UInt8) (area : Nat) : Int :=
  asciiStrnCmpFrom (m := Id) (Mem.ofList l) (m.drop (area + 8)) 0 31

theorem findArea_succ (m : Mem) (l : List UInt8) (area n : Nat) :
    findArea (m := Id) m l area (n + 1) = if compareName m l area = 0 then some area
      else findArea (m := Id) m l (area + sizeofFmapAreaHeader) n := rfl

theorem findArea_eq (m : Mem) (l : List UInt8) (area n : Nat) : findArea (m := Id) m l area n =
    searchFrom (compareName m l · = 0) sizeofFmapAreaHeader area n := by
  induction n generalizing area with
  | zero => rfl
  | succ n ih => rw [findArea_succ, searchFrom, ih]

section

variable {l : List UInt8} (hl : ∀ c ∈ l, c ≠ 0) (hlen : l.length ≤ 31)
include hl hlen

theorem compareName_eq_zero (m : Mem) (area : Nat) :
    compareName m l area = 0 ↔ areaName m area = l := by
  have h := asciiStrnCmpFrom_eq_zero (Mem.ofList l) (m.drop (area + 8)) 0 31
  rw [Mem.drop_zero, Mem.drop_zero, Mem.text_ofList hl, List.take_of_length_le (by omega)] at h
  exact h.trans eq_comm

theorem findArea_eq_some {m : Mem} {areas n found : Nat} :
    findArea (m := Id) m l areas n = some found ↔ ∃ i, Searched m l areas n i ∧
      areaName m (areaHeader areas i) = l ∧ found = areaHeader areas i := by
  rw [findArea_eq, searchFrom_eq_some]
  simp only [compareName_eq_zero hl hlen]
  constructor
  · intro h
    obtain ⟨i, hi, rfl, hname, hfirst⟩ := h
    exact ⟨i, ⟨hi, hfirst⟩, hname, rfl⟩
  · intro h
    obtain ⟨i, ⟨hi, hfirst⟩, hname, rfl⟩ := h
    exact ⟨i, hi, rfl, hname, hfirst⟩

theorem findArea_round (b : Buf) (area n : Nat) :
    findArea (m := Prog E) b.load l area (n + 1) =
      if NameFits b.bytes b.size l area then
        if compareName b.bytes l area = 0 then pure (some area)
        else findArea (m := Prog E) b.load l (area + sizeofFmapAreaHeader) n
      else .fault := by
  have hcompare := asciiStrnCmpFrom_name (E := E) b (area + 8) hl (i := 0) (n := 31) hlen
  rw [List.drop_zero, Nat.add_zero] at hcompare
  have hstep : findArea (m := Prog E) b.load l area (n + 1) =
      asciiStrnCmpFrom (m := Prog E) (fun j => pure (Mem.ofList l j)) (fun j => b.load (area + 8 + j))
        0 31 >>= fun r => if r = 0 then pure (some area)
          else findArea b.load l (area + sizeofFmapAreaHeader) n := rfl
  rw [hstep, hcompare]
  by_cases hin : NameFits b.bytes b.size l area
  · rw [if_pos hin]
    rw [NameFits] at hin
    rw [if_pos hin, pure_bind]
    rfl
  · rw [if_neg hin]
    rw [NameFits] at hin
    rw [if_neg hin]
    rfl

/-- The search finds what it finds in plain memory if the names it looks at fit. -/
theorem findArea_of_fits (b : Buf) {areas n : Nat}
    (h : ∀ i, Searched b.bytes l areas n i → NameFits b.bytes b.size l (areaHeader areas i)) :
    findArea (m := Prog E) b.load l areas n = pure (findArea (m := Id) b.bytes l areas n) := by
  induction n generalizing areas with
  | zero => rfl
  | succ n ih =>
    have hfirst : NameFits b.bytes b.size l areas := h 0 (searched_zero _ l areas n)
    rw [findArea_round hl hlen, if_pos hfirst, findArea_succ]
    by_cases hmatch : compareName b.bytes l areas = 0
    · rw [if_pos hmatch, if_pos hmatch]
    · rw [if_neg hmatch, if_neg hmatch]
      have hname := mt (compareName_eq_zero hl hlen b.bytes areas).2 hmatch
      refine ih fun i hi => ?_
      rw [← areaHeader_succ]
      exact h (i + 1) (searched_succ.2 ⟨hname, hi⟩)

theorem findArea_of_not_fits (b : Buf) {areas n i : Nat} (hi : Searched b.bytes l areas n i)
    (h : ¬ NameFits b.bytes b.size l (areaHeader areas i)) :
    findArea (m := Prog E) b.load l areas n = .fault := by
  induction n generalizing areas i with
  | zero => exact absurd hi.1 (Nat.not_lt_zero i)
  | succ n ih =>
    rw [findArea_round hl hlen]
    by_cases hin : NameFits b.bytes b.size l areas
    · cases i with
      | zero => exact absurd hin h
      | succ i =>
        have hsearched := searched_succ.1 hi
        rw [if_pos hin, if_neg (mt (compareName_eq_zero hl hlen b.bytes areas).1 hsearched.1)]
        rw [areaHeader_succ] at h
        exact ih hsearched.2 h
    · rw [if_neg hin]

end

end FrameworkHacks
