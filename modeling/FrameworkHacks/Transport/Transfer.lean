import FrameworkHacks.Transport.Azalea
import FrameworkHacks.Transport.Device
import FrameworkHacks.Transport.Mec

/-!
# What a transfer moves

`moved direction k a off data b` is the effect a transfer of `k` bytes between address `a` and
`data + off` should have, on the buffer and on the bus. Moves of consecutive ranges compose
(`moved_moved`), so the phases and loops of the two `ECTransfer` functions add up to one move
(`Mec.ends_ecTransfer`, `Azalea.ends_ecTransfer`).
-/

namespace FrameworkHacks.Transport

open Effects

variable {σ : Type}

def moved (direction : Direction) (k a off : Nat) (data : Buf) (b : Bus σ) : Buf × Bus σ :=
  match direction with
  | .write => (data, b.put a (data.bytes.drop off) k)
  | .read => (⟨data.bytes.copy off (b.mem.drop a) k, data.size⟩, b.fetch a k)

@[simp] theorem moved_size (direction : Direction) (k a off : Nat) (data : Buf) (b : Bus σ) :
    (moved direction k a off data b).1.size = data.size := by
  cases direction <;> rfl

theorem moved_zero (direction : Direction) (a off : Nat) (data : Buf) (b : Bus σ) :
    moved direction 0 a off data b = (data, b) := by
  cases direction
  · simp [moved, Bus.put]
  · simp [moved, Bus.fetch]

theorem moved_moved (direction : Direction) (k m a off : Nat) (data : Buf) (b : Bus σ) :
    moved direction m (a + k) (off + k) (moved direction k a off data b).1
      (moved direction k a off data b).2 = moved direction (k + m) a off data b := by
  have hdrop (s : Mem) (i : Nat) : s.drop (i + k) = (s.drop i).drop k := by
    funext j
    simp [Nat.add_assoc]
  cases direction with
  | write =>
    simp only [moved, Bus.put, hdrop]
    rw [Mem.copy_copy]
  | read =>
    simp only [moved, Bus.fetch, hdrop]
    rw [Mem.copy_copy, List.append_assoc, List.range'_append_1]

theorem moved_succ {direction : Direction} {k a off : Nat} {data data' : Buf} {b b' : Bus σ}
    (h : (data', b') = moved direction k a off data b) :
    moved direction 1 (a + k) (off + k) data' b' = moved direction (k + 1) a off data b := by
  rw [← moved_moved, ← h]

/-! ### The address register -/

theorem and_fffc (x : UInt16) : (x &&& 0xFFFC).toNat = x.toNat - x.toNat % 4 := by
  have hlt := x.toNat_lt
  rw [UInt16.toNat_and]
  have hdiv : (x.toNat &&& (0xFFFC : UInt16).toNat) / 2 ^ 2 = x.toNat / 2 ^ 2 := by
    rw [Nat.and_div_two_pow]
    have := Nat.and_two_pow_sub_one_eq_mod (x.toNat / 2 ^ 2) 14
    rw [Nat.mod_eq_of_lt (by omega)] at this
    exact this
  have hmod : (x.toNat &&& (0xFFFC : UInt16).toNat) % 2 ^ 2 = 0 := by
    rw [Nat.and_mod_two_pow]
    exact Nat.and_zero _
  omega

theorem and_three (x : UInt16) : (x &&& 3).toNat = x.toNat % 4 := by
  rw [UInt16.toNat_and]
  exact Nat.and_two_pow_sub_one_eq_mod x.toNat 2

theorem or_three (x : UInt16) (h : x.toNat % 4 = 0) : (x ||| 3).toNat = x.toNat + 3 := by
  rw [UInt16.toNat_or]
  have hdiv : (x.toNat ||| (3 : UInt16).toNat) / 2 ^ 2 = x.toNat / 2 ^ 2 := by
    rw [Nat.or_div_two_pow]
    exact Nat.or_zero _
  have hmod : (x.toNat ||| (3 : UInt16).toNat) % 2 ^ 2 = 3 := by
    rw [Nat.or_mod_two_pow, show x.toNat % 2 ^ 2 = 0 from h]
    exact Nat.zero_or _
  omega

/-! ### The Microchip transfer -/

namespace Mec

theorem portWord_bytes (temp : Mem) (i : Nat) {k : Nat} (hk : k < 2) :
    Mem.ofList (Mem.le16Bytes (portWord temp i).toNat) k = temp (i + k) := by
  have hlt := temp.le16_lt i
  have h₀ := (temp i).toNat_lt
  have h₁ := (temp (i + 1)).toNat_lt
  rw [portWord, UInt16.toNat_ofNat', Nat.mod_eq_of_lt hlt]
  simp only [Mem.le16Bytes, Mem.ofList, Mem.le16]
  obtain rfl | rfl : k = 0 ∨ k = 1 := by omega
  · apply UInt8.toNat_inj.1
    simp only [List.getD_cons_zero, Mem.byteOf_toNat, Nat.add_zero]
    omega
  · apply UInt8.toNat_inj.1
    simp only [List.getD_cons_succ, List.getD_cons_zero, Mem.byteOf_toNat]
    omega

/-! The data registers, from the first one on. -/

theorem emi_read8 (ec : Ec σ) {i : Nat} (hi : i < 4) (d : Emi σ) :
    emi ec (.ioRead8 (mecLpcDataRegister0 + i)) d = .ok (d.mem (d.dword + i), d.fetch i 1) := by
  have hreg : isDataRegister (mecLpcDataRegister0 + i) 1 = true := by
    simp [isDataRegister, mecLpcDataRegister0]
    omega
  simp only [mecLpcDataRegister0] at hreg ⊢
  rw [emi, if_neg (by simp only [ecLpcAddrHostCmd]; omega),
    if_neg (by simp only [ecLpcAddrHostData]; omega), if_pos hreg, Nat.add_sub_cancel_left]

theorem emi_write8 (ec : Ec σ) {i : Nat} (hi : i < 4) (v : UInt8) (d : Emi σ) :
    emi ec (.ioWrite8 (mecLpcDataRegister0 + i) v) d = .ok ((), d.put i (fun _ => v) 1) := by
  have hreg : isDataRegister (mecLpcDataRegister0 + i) 1 = true := by
    simp [isDataRegister, mecLpcDataRegister0]
    omega
  simp only [mecLpcDataRegister0] at hreg ⊢
  rw [emi, if_neg (by simp only [ecLpcAddrHostCmd]; omega), if_pos hreg, Nat.add_sub_cancel_left]

theorem emi_read16 (ec : Ec σ) {i : Nat} (hi : i ≤ 2) (d : Emi σ) :
    emi ec (.ioRead16 (mecLpcDataRegister0 + i)) d =
      .ok (portWord d.mem (d.dword + i), d.fetch i 2) := by
  have hreg : isDataRegister (mecLpcDataRegister0 + i) 2 = true := by
    simp [isDataRegister, mecLpcDataRegister0]
    omega
  simp only [mecLpcDataRegister0] at hreg ⊢
  rw [emi, if_pos hreg, Nat.add_sub_cancel_left]
  rfl

theorem emi_write16 (ec : Ec σ) {i : Nat} (hi : i ≤ 2) (v : UInt16) (d : Emi σ) :
    emi ec (.ioWrite16 (mecLpcDataRegister0 + i) v) d =
      .ok ((), d.put i (Mem.ofList (Mem.le16Bytes v.toNat)) 2) := by
  have hreg : isDataRegister (mecLpcDataRegister0 + i) 2 = true := by
    simp [isDataRegister, mecLpcDataRegister0]
    omega
  simp only [mecLpcDataRegister0] at hreg ⊢
  rw [emi, if_neg (by omega), if_pos hreg, Nat.add_sub_cancel_left]

theorem exec_byte (ec : Ec σ) (direction : Direction) (data : Buf) (i off : Nat) (d : Emi σ)
    (hi : i < 4) (hmode : d.address.toNat % 4 = 0) (hoff : off < data.size) :
    (transferByte direction (mecLpcDataRegister0 + i) data off).exec (emi ec) d =
      (.ok (moved direction 1 (d.address.toNat + i) off data d.toBus).1,
        { d with toBus := (moved direction 1 (d.address.toNat + i) off data d.toBus).2 }) := by
  have hdword : d.dword = d.address.toNat := by
    rw [Emi.dword, and_fffc, hmode, Nat.sub_zero]
  have hmode' : ¬(d.address &&& 3 = 3) := fun h => by
    have := congrArg UInt16.toNat h
    rw [and_three, hmode] at this
    cases this
  have hnext : d.nextAddress i 1 = d.address := if_neg fun h => hmode' h.1
  cases direction with
  | write =>
    rw [transferByte, Buf.load_of_lt hoff, pure_bind]
    refine (Prog.exec_bind_ok (Prog.exec_perform (emi_write8 ec hi _ d))).trans ?_
    have hone : d.mem.copy (d.address.toNat + i) (fun _ => data.bytes off) 1 =
        d.mem.copy (d.address.toNat + i) (data.bytes.drop off) 1 :=
      Mem.copy_congr fun j hj => by rw [Mem.drop_apply, Nat.lt_one_iff.1 hj, Nat.add_zero]
    rw [Prog.exec_pure, Emi.put, hnext, hdword, Bus.put, hone]
    rfl
  | read =>
    unfold transferByte
    apply (Prog.exec_bind_ok (Prog.exec_perform (emi_read8 ec hi d))).trans
    rw [Buf.store_of_lt _ hoff, Prog.exec_pure, Emi.fetch, hnext, hdword]
    simp only [moved]
    rw [← Mem.copy_set data.bytes _ off 0, Mem.copy_zero]
    rfl

/-- One double word: two words, the second of which covers register 3 and advances the address. -/
theorem exec_dword (ec : Ec σ) (direction : Direction) (data : Buf) (off a : Nat) (d : Emi σ)
    (hmode : d.address.toNat = a + 3) (ha : a % 4 = 0) (hoff : off + 4 ≤ data.size) :
    (transferDword direction data off).exec (emi ec) d =
      (.ok (moved direction 4 a off data d.toBus).1,
        { toBus := (moved direction 4 a off data d.toBus).2, address := d.address + 4 }) := by
  obtain ⟨b, address⟩ := d
  simp only at hmode
  have hdword : ∀ b : Bus σ, (Emi.mk b address).dword = a := fun b => by
    rw [Emi.dword, and_fffc]
    simp only [hmode]
    omega
  have hthree : address &&& 3 = 3 := by
    apply UInt16.toNat_inj.1
    rw [and_three, hmode]
    show (a + 3) % 4 = 3
    omega
  have hlow : ∀ b : Bus σ, (Emi.mk b address).nextAddress 0 2 = address := fun b => if_neg (by omega)
  have hhigh : ∀ b : Bus σ, (Emi.mk b address).nextAddress 2 2 = address + 4 := fun b =>
    if_pos ⟨hthree, by omega⟩
  cases direction with
  | write =>
    rw [transferDword, Buf.copyOut_of_le hoff, pure_bind]
    set temp := data.bytes.drop off
    refine (Prog.exec_bind_ok (Prog.exec_perform (emi_write16 ec (i := 0) (by omega) _ _))).trans ?_
    refine (Prog.exec_bind_ok (Prog.exec_perform (emi_write16 ec (i := 2) (by omega) _ _))).trans ?_
    have h₀ : b.mem.copy a (Mem.ofList (Mem.le16Bytes (portWord temp 0).toNat)) 2 =
        b.mem.copy a temp 2 :=
      Mem.copy_congr fun k hk => (portWord_bytes temp 0 hk).trans (by rw [Nat.zero_add])
    have h₂ : (b.mem.copy a temp 2).copy (a + 2)
        (Mem.ofList (Mem.le16Bytes (portWord temp 2).toNat)) 2 = b.mem.copy a temp 4 :=
      (Mem.copy_congr fun k hk => portWord_bytes temp 2 hk).trans (Mem.copy_copy b.mem temp a 2 2)
    rw [Prog.exec_pure]
    simp only [Emi.put, hdword, hlow, hhigh, Bus.put, moved, Nat.add_zero, h₀, h₂]
    rfl
  | read =>
    unfold transferDword
    refine (Prog.exec_bind_ok (Prog.exec_perform (emi_read16 ec (i := 0) (by omega) _))).trans ?_
    refine (Prog.exec_bind_ok (Prog.exec_perform (emi_read16 ec (i := 2) (by omega) _))).trans ?_
    rw [Buf.copyIn_of_le _ hoff, Prog.exec_pure]
    simp only [Emi.fetch, hdword, hlow, hhigh, Bus.fetch, moved, Nat.add_zero, List.append_assoc,
      List.range'_append_1]
    rw [Mem.copy_congr (t := b.mem.drop a) fun k hk => ?_]
    have h₀ : ∀ k < 2, _ := fun k hk => portWord_bytes b.mem a (k := k) hk
    have h₂ : ∀ k < 2, _ := fun k hk => portWord_bytes b.mem (a + 2) (k := k) hk
    match k, hk with
    | 0, _ => exact h₀ 0 (by omega)
    | 1, _ => exact h₀ 1 (by omega)
    | 2, _ => exact h₂ 0 (by omega)
    | 3, _ => exact h₂ 1 (by omega)

/-- How far the head goes: to the next multiple of four. -/
def pad (a : Nat) : Nat := (4 - a % 4) % 4

/-- How many bytes a transfer of size `n` at address `a` really moves: the head always goes to the
next multiple of four. -/
def reach (a n : Nat) : Nat := max n (pad a)

/-- `k` bytes of a transfer are done: the locals and the device are in between. -/
def Midway (direction : Direction) (a off : Nat) (data : Buf) (b : Bus σ) (k : Nat) (c : Cursor)
    (d : Emi σ) : Prop :=
  c.pos = k ∧ c.address.toNat = a + k ∧ (c.data, d.toBus) = moved direction k a off data b

theorem Midway.add {direction : Direction} {a off k m : Nat} {data : Buf} {b : Bus σ} {c c' : Cursor}
    {d d' : Emi σ} (h : Midway direction a off data b k c d) (hpos : c'.pos = c.pos + m)
    (haddress : c'.address.toNat = c.address.toNat + m)
    (hmoved : (c'.data, d'.toBus) = moved direction m c.address.toNat (off + c.pos) c.data d.toBus) :
    Midway direction a off data b (k + m) c' d' := by
  obtain ⟨hk, ha, hm⟩ := h
  refine ⟨by rw [hpos, hk], by rw [haddress, ha, Nat.add_assoc], ?_⟩
  rw [hmoved, ha, hk, ← moved_moved, ← hm]

/-- The tail's and the head's way of setting the address register. -/
theorem exec_byteAccess (ec : Ec σ) (address : UInt16) (d : Emi σ) :
    emi ec (.ioWrite16 mecLpcAddressRegister0 ((address &&& 0xFFFC) ||| mecEcByteAccess)) d =
      .ok ((), { d with address := address &&& 0xFFFC }) := by
  rw [mecEcByteAccess, show (address &&& 0xFFFC) ||| 0 = address &&& 0xFFFC from UInt16.or_zero]
  rfl

theorem ends_byte (ec : Ec σ) {direction : Direction} {a off k i : Nat} {data data' : Buf}
    {b : Bus σ} {d : Emi σ} {address : UInt16} (hi : i < 4) (haddress : d.address = address)
    (hmode : address.toNat % 4 = 0) (ha : address.toNat + i = a + k) (hfit : off + k < data.size)
    (h : (data', d.toBus) = moved direction k a off data b) :
    Prog.Ends (emi ec) (transferByte direction (mecLpcDataRegister0 + i) data' (off + k)) d
      (fun data'' d' => d'.address = address ∧
        (data'', d'.toBus) = moved direction (k + 1) a off data b) := by
  have hsize : data'.size = data.size := by
    rw [show data' = (moved direction k a off data b).1 by rw [← h], moved_size]
  subst haddress
  refine ⟨_, _, exec_byte ec direction data' i (off + k) d hi hmode (by omega), rfl, ?_⟩
  rw [ha]
  exact moved_succ h

theorem ends_head (ec : Ec σ) (direction : Direction) (a off : Nat) (data : Buf) (d : Emi σ)
    (ha : a ≤ 0x8000) (hfit : off + pad a ≤ data.size) :
    Prog.Ends (emi ec) (transferHead direction off ⟨0, UInt16.ofNat a, data⟩) d
      (Midway direction a off data d.toBus (pad a)) := by
  have haddress : (UInt16.ofNat a).toNat = a := by
    rw [UInt16.toNat_ofNat', Nat.mod_eq_of_lt (by omega)]
  have hmod : (UInt16.ofNat a % 4).toNat = a % 4 := by
    rw [UInt16.toNat_mod, haddress]
    rfl
  unfold transferHead
  by_cases hpad : UInt16.ofNat a % 4 > 0
  · have hpos : 0 < a % 4 := by
      have := UInt16.lt_iff_toNat_lt.1 hpad
      rwa [hmod] at this
    have hk : pad a = 4 - a % 4 := Nat.mod_eq_of_lt (by omega)
    rw [if_pos hpad]
    refine Prog.Ends.perform_bind (exec_byteAccess ec _ d) ?_
    simp only [hmod]
    have hbase : (UInt16.ofNat a &&& 0xFFFC).toNat = a - a % 4 := by rw [and_fffc, haddress]
    -- round `i` of the loop moves byte `i - a % 4`
    refine (Prog.Ends.forRange (I := fun i s d' => s.1 = i - a % 4 ∧
      d'.address = UInt16.ofNat a &&& 0xFFFC ∧
      (s.2, d'.toBus) = moved direction (i - a % 4) a off data d.toBus) (a % 4) (4 - a % 4)
      ?_ (0, data) _ ⟨by omega, rfl, by rw [Nat.sub_self, moved_zero]⟩).bind ?_
    · rintro i ⟨pos, data'⟩ d' hlo hhi ⟨hpos', haddr, hm⟩
      simp only at hpos' hm ⊢
      subst hpos'
      apply (ends_byte ec (by omega) haddr (by omega) (by omega) (by omega) hm).bind
      intro data'' d'' h
      refine .pure ⟨by simp only; omega, h.1, ?_⟩
      rw [show i + 1 - a % 4 = i - a % 4 + 1 by omega]
      exact h.2
    · rintro ⟨pos, data'⟩ d' ⟨hpos', -, hm⟩
      refine .pure ⟨by simp only at hpos' ⊢; omega, ?_, ?_⟩
      · simp only
        rw [and_fffc, UInt16.toNat_add, haddress]
        simp only [UInt16.reduceToNat]
        omega
      · rw [hk]
        rw [show a % 4 + (4 - a % 4) - a % 4 = 4 - a % 4 by omega] at hm
        exact hm
  · have hzero : a % 4 = 0 := by
      have := mt UInt16.lt_iff_toNat_lt.2 hpad
      rw [hmod] at this
      simpa using this
    rw [if_neg hpad, show pad a = 0 by simp [pad, hzero]]
    exact .pure ⟨rfl, haddress, (moved_zero ..).symm⟩

theorem Midway.size {direction : Direction} {a off k : Nat} {data : Buf} {b : Bus σ} {c : Cursor}
    {d : Emi σ} (h : Midway direction a off data b k c d) : c.data.size = data.size := by
  rw [show c.data = (moved direction k a off data b).1 by rw [← h.2.2], moved_size]

/-- What holds whenever a round of the body begins: whole double words have been moved, and the
address register follows the cursor. -/
def Dwords (direction : Direction) (a off n k : Nat) (data : Buf) (b : Bus σ) (c : Cursor)
    (d : Emi σ) : Prop :=
  ∃ j, 4 * j ≤ n - k ∧ Midway direction a off data b (k + 4 * j) c d ∧
    d.address.toNat = c.address.toNat + 3

theorem ends_dwordRound (ec : Ec σ) {direction : Direction} {a off n k : Nat} {data : Buf} {b : Bus σ}
    {c : Cursor} {d : Emi σ} (h : Dwords direction a off n k data b c d) (hk : (a + k) % 4 = 0)
    (ha : a + n ≤ 0x8000) (hfit : off + max n k ≤ data.size) :
    Prog.Ends (emi ec) (dwordRound direction off (UInt16.ofNat n) c) d fun r d' =>
      Sum.elim (fun c' => Midway direction a off data b (k + (n - k) / 4 * 4) c' d')
        (fun c' => Dwords direction a off n k data b c' d' ∧ n - c'.pos < n - c.pos) r := by
  obtain ⟨j, hj, hmid, hmode⟩ := h
  have hn : (UInt16.ofNat n).toNat = n := by
    rw [UInt16.toNat_ofNat', Nat.mod_eq_of_lt (by omega)]
  have hpos := hmid.1
  have haddr := hmid.2.1
  rw [dwordRound, hn, hpos]
  by_cases hmore : (n : Int) - (k + 4 * j : Nat) ≥ 4
  · rw [if_pos hmore]
    refine Prog.Ends.bind (Q := fun data' d' => d' = ⟨d'.toBus, d.address + 4⟩ ∧
      (data', d'.toBus) = moved direction 4 (c.address.toNat) (off + c.pos) c.data d.toBus)
      ⟨_, _, exec_dword ec direction c.data _ (a + (k + 4 * j)) d (by omega) (by omega)
        (by rw [hmid.size]; omega), rfl, by rw [haddr, hpos]⟩ ?_
    rintro data' ⟨b', address'⟩ ⟨heq, hm⟩
    injection heq with _ haddress'
    have haddress : (c.address + 4).toNat = c.address.toNat + 4 := by
      rw [UInt16.toNat_add, haddr]
      simp only [UInt16.reduceToNat]
      omega
    refine .pure ⟨⟨j + 1, by omega, ?_, ?_⟩, ?_⟩
    · rw [show k + 4 * (j + 1) = k + 4 * j + 4 by omega]
      exact Midway.add hmid (by simp only [hpos]) haddress hm
    · simp only [haddress', haddress]
      rw [UInt16.toNat_add, hmode, haddr]
      simp only [UInt16.reduceToNat]
      omega
    · simp only
      omega
  · rw [if_neg hmore]
    refine .pure ?_
    rw [show (n - k) / 4 * 4 = 4 * j by omega]
    exact hmid

theorem ends_body (ec : Ec σ) (direction : Direction) (a off n k : Nat) (data : Buf) (b : Bus σ)
    (c : Cursor) (d : Emi σ) (hmid : Midway direction a off data b k c d) (hk : (a + k) % 4 = 0)
    (ha : a + n ≤ 0x8000) (hfit : off + max n k ≤ data.size) :
    Prog.Ends (emi ec) (transferBody direction off (UInt16.ofNat n) c) d
      (Midway direction a off data b (k + (n - k) / 4 * 4)) := by
  have hn : (UInt16.ofNat n).toNat = n := by
    rw [UInt16.toNat_ofNat', Nat.mod_eq_of_lt (by omega)]
  have hpos : c.pos = k := hmid.1
  have haddr : c.address.toNat = a + k := hmid.2.1
  rw [transferBody, hn, hpos]
  by_cases hlong : (n : Int) - k ≥ 4
  · rw [if_pos hlong]
    have hmask : (c.address &&& 0xFFFC).toNat = a + k := by
      rw [and_fffc, haddr, hk, Nat.sub_zero]
    have hreg : emi ec (.ioWrite16 mecLpcAddressRegister0
        ((c.address &&& 0xFFFC) ||| mecEcLongAccessAutoincrement)) d =
        .ok ((), { d with address := (c.address &&& 0xFFFC) ||| 3 }) := rfl
    refine Prog.Ends.perform_bind hreg ?_
    refine Prog.Ends.loop (I := Dwords direction a off n k data b) (μ := fun c => n - c.pos)
      (fun c d h => ends_dwordRound ec h hk ha hfit) _ _ _ ⟨0, by omega, hmid, ?_⟩ (by omega)
    simp only [or_three _ (show (c.address &&& 0xFFFC).toNat % 4 = 0 by omega), hmask, haddr]
  · rw [if_neg hlong, show (n - k) / 4 * 4 = 0 by omega]
    exact .pure hmid

theorem ends_tail (ec : Ec σ) (direction : Direction) (a off n k : Nat) (data : Buf) (b : Bus σ)
    (c : Cursor) (d : Emi σ) (hmid : Midway direction a off data b k c d) (hk : (a + k) % 4 = 0)
    (hn : n < 65536) (hrest : n - k < 4) (hfit : off + max n k ≤ data.size) :
    Prog.Ends (emi ec) (transferTail direction off (UInt16.ofNat n) c) d
      (fun data' d' => (data', d'.toBus) = moved direction (max n k) a off data b) := by
  have hn : (UInt16.ofNat n).toNat = n := by rw [UInt16.toNat_ofNat', Nat.mod_eq_of_lt hn]
  obtain ⟨hpos, haddr, hm⟩ := hmid
  rw [transferTail, hn, hpos]
  by_cases hmore : (n : Int) - k > 0
  · rw [if_pos hmore]
    refine Prog.Ends.perform_bind (exec_byteAccess ec _ d) ?_
    have hmask : (c.address &&& 0xFFFC).toNat = a + k := by
      rw [and_fffc, haddr, hk, Nat.sub_zero]
    refine (Prog.Ends.forRange (I := fun i data' d' => d'.address = c.address &&& 0xFFFC ∧
      (data', d'.toBus) = moved direction (k + i) a off data b) 0 (n - k) ?_ c.data _
      ⟨rfl, hm⟩).mono ?_
    · rintro i data' d' - hi ⟨haddress, hm⟩
      exact ends_byte ec (by omega) haddress (by omega) (by omega) (by omega) hm
    · rintro data' d' ⟨-, hm⟩
      rw [show max n k = k + (0 + (n - k)) by omega]
      exact hm
  · rw [if_neg hmore, show max n k = k by omega]
    exact .pure hm

/-- **The Microchip transfer moves `reach a n` bytes**, which is `n` if `a` is a multiple of four. -/
theorem ends_ecTransfer (ec : Ec σ) (direction : Direction) (a off n : Nat) (data : Buf) (d : Emi σ)
    (ha : a + n ≤ 0x8000) (hfit : off + reach a n ≤ data.size) :
    Prog.Ends (emi ec) (ecTransfer direction (UInt16.ofNat a) data off (UInt16.ofNat n)) d
      (fun data' d' => (data', d'.toBus) = moved direction (reach a n) a off data d.toBus) := by
  have hpad : (a + pad a) % 4 = 0 := by
    unfold pad
    omega
  unfold reach at hfit
  unfold ecTransfer
  apply (ends_head ec direction a off data d (by omega) (by omega)).bind
  intro c d₁ hhead
  refine (ends_body ec direction a off n _ data _ c d₁ hhead hpad ha hfit).bind
    fun c d₂ hbody => ?_
  have hmax : max n (pad a + (n - pad a) / 4 * 4) = max n (pad a) := by omega
  have := ends_tail ec direction a off n _ data _ c d₂ hbody (by omega) (by omega) (by omega)
    (by rwa [hmax])
  rwa [hmax] at this

end Mec

/-! ### The NPCX transfer -/

namespace Azalea

/-- The port that stands for an address. -/
def portOf (address : UInt16) : Nat := (basePort address).toNat + (address &&& 0xFF).toNat

theorem le_portOf (address : UInt16) : 0x800 ≤ portOf address := by
  have h : 0x800 ≤ (basePort address).toNat := by
    rw [basePort, UInt16.toNat_or, UInt16.toNat_or]
    exact Nat.le_trans Nat.left_le_or Nat.left_le_or
  exact Nat.le_trans h (Nat.le_add_right _ _)

theorem portOf_packet : ∀ a < 256, portOf (UInt16.ofNat a) = 0x800 + a := by
  decide +kernel

theorem npcx_read8 (ec : Ec σ) {port : Nat} (h : 0x800 ≤ port) (b : Bus σ) :
    npcx ec (.ioRead8 port) b = .ok (b.mem port, b.fetch port 1) := by
  rw [npcx, if_neg (by simp only [ecLpcAddrHostCmd]; omega),
    if_neg (by simp only [ecLpcAddrHostData]; omega)]

theorem npcx_write8 (ec : Ec σ) {port : Nat} (h : 0x800 ≤ port) (v : UInt8) (b : Bus σ) :
    npcx ec (.ioWrite8 port v) b = .ok ((), b.put port (fun _ => v) 1) := by
  rw [npcx, if_neg (by simp only [ecLpcAddrHostCmd]; omega)]

theorem exec_byte (ec : Ec σ) (direction : Direction) (port off : Nat) (data : Buf) (b : Bus σ)
    (hport : 0x800 ≤ port) (hoff : off < data.size) :
    (transferByte direction port data off).exec (npcx ec) b =
      (.ok (moved direction 1 port off data b).1, (moved direction 1 port off data b).2) := by
  cases direction with
  | write =>
    rw [transferByte, Buf.load_of_lt hoff, pure_bind]
    refine (Prog.exec_bind_ok (Prog.exec_perform (npcx_write8 ec hport _ b))).trans ?_
    have hone : b.mem.copy port (fun _ => data.bytes off) 1 =
        b.mem.copy port (data.bytes.drop off) 1 :=
      Mem.copy_congr fun j hj => by rw [Mem.drop_apply, Nat.lt_one_iff.1 hj, Nat.add_zero]
    rw [Prog.exec_pure, Bus.put, hone]
    rfl
  | read =>
    unfold transferByte
    apply (Prog.exec_bind_ok (Prog.exec_perform (npcx_read8 ec hport b))).trans
    rw [Buf.store_of_lt _ hoff, Prog.exec_pure]
    simp only [moved]
    rw [← Mem.copy_set data.bytes _ off 0, Mem.copy_zero]
    rfl

/-- **The Azalea transfer moves exactly `n` bytes.** -/
theorem ends_ecTransfer (ec : Ec σ) (direction : Direction) (address : UInt16) (off n : Nat)
    (data : Buf) (b : Bus σ) (hn : n < 65536) (hfit : off + n ≤ data.size) :
    Prog.Ends (npcx ec) (ecTransfer direction address data off (UInt16.ofNat n)) b
      (fun data' b' => (data', b') = moved direction n (portOf address) off data b) := by
  have hn' : (UInt16.ofNat n).toNat = n := by rw [UInt16.toNat_ofNat', Nat.mod_eq_of_lt hn]
  have hport := le_portOf address
  simp only [ecTransfer, hn']
  refine (Prog.Ends.forRange (I := fun i data' b' =>
    (data', b') = moved direction i (portOf address) off data b) 0 n ?_ data b
    (moved_zero ..).symm).mono fun data' b' h => by rwa [Nat.zero_add] at h
  intro i data' b' _ hi h
  have hsize : data'.size = data.size := by
    rw [show data' = (moved direction i (portOf address) off data b).1 by rw [← h], moved_size]
  have hstep := exec_byte ec direction (portOf address + i) (off + i) data' b' (by omega) (by omega)
  exact ⟨_, _, hstep, moved_succ h⟩

end Azalea

end FrameworkHacks.Transport
