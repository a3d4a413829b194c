import FrameworkHacks.Transport.Malformed
import FrameworkHacks.Transport.ReadMemory

/-!
# The size checks

Both hardware libraries add before they compare, in 64 bits. So a check lets a size through that it
should refuse exactly if the sum wraps into the range that is allowed (`sizeChecks_exact_iff`).
-/

namespace FrameworkHacks.Transport

open Effects

/-- A read that does not lie in the memory map is refused: no port is touched, the buffer is left
alone, and the result is -1. -/
def ReadGuarded (p : Prog Io (Int × Buf)) (offset length : UInt64) (buffer : Buf) : Prop :=
  ecMemmapSize < offset.toNat + length.toNat → p.Returns (-1, buffer)

/-- A command that does not fit into a packet is refused: no port is touched, the buffer is left
alone, and the result is `-EC_RES_REQUEST_TRUNCATED`. -/
def SendGuarded (p : Prog Io (Int × Mem)) (outsize : UInt64) (indata : Mem) : Prop :=
  ecLpcHostPacketSize < outsize.toNat + sizeofEcHostRequest →
    p.Returns (-EcStatus.requestTruncated.code, indata)

/-- The 64-bit sum of offset and length is in the range although the sum is not. -/
def ReadWraps (offset length : UInt64) : Prop :=
  0x10000000000000000 ≤ offset.toNat + length.toNat ∧
    offset.toNat + length.toNat ≤ 0x10000000000000000 + ecMemmapSize

/-! ### Transfers that touch a port -/

theorem Mec.ecTransfer_ne_pure {address size : UInt16} (hsize : 4 ≤ size.toNat) (direction : Direction)
    (data : Buf) (off : Nat) (data' : Buf) :
    ecTransfer direction address data off size ≠ pure data' := by
  intro h
  obtain ⟨c, hhead, h⟩ := Prog.bind_eq_pure h
  obtain ⟨c', hbody, -⟩ := Prog.bind_eq_pure h
  -- either the head or the body sets the address register
  unfold transferHead at hhead
  by_cases hpad : address % 4 > 0
  · rw [if_pos hpad] at hhead
    exact Prog.perform_bind_ne_pure _ _ _ hhead
  · rw [if_neg hpad] at hhead
    cases hhead
    rw [transferBody, if_pos (by simp only; omega)] at hbody
    exact Prog.perform_bind_ne_pure _ _ _ hbody

theorem Azalea.ecTransfer_ne_pure {address size : UInt16} (hsize : 4 ≤ size.toNat) (data : Buf)
    (off : Nat) (data' : Buf) : ecTransfer .read address data off size ≠ pure data' := by
  intro h
  obtain ⟨n, hn⟩ : ∃ n, size.toNat = n + 1 := ⟨size.toNat - 1, by omega⟩
  unfold ecTransfer at h
  simp only [hn] at h
  obtain ⟨data₁, hbyte, -⟩ := Prog.bind_eq_pure h
  exact Prog.perform_bind_ne_pure _ _ _ hbyte

/-! ### The checks -/

theorem sum_toNat (a b : UInt64) :
    (a + b).toNat = a.toNat + b.toNat ∧ a.toNat + b.toNat < 0x10000000000000000 ∨
      (a + b).toNat + 0x10000000000000000 = a.toNat + b.toNat := by
  have ha := a.toNat_lt
  have hb := b.toNat_lt
  rw [UInt64.toNat_add]
  omega

/-- A count of -1 comes with a transfer of 65535 bytes. -/
theorem size_of_toInt {length : UInt64} (h : toInt length.toNat = -1) :
    length.toUInt16.toNat = 65535 := by
  rw [uint16_toNat]
  unfold toInt at h
  split at h
  · omega
  · omega

theorem readGuarded_iff {xfer : EcTransfer} (hxfer : ∀ (address size : UInt16) (data data' : Buf),
      4 ≤ size.toNat → xfer .read address data 0 size ≠ pure data') (offset length : UInt64)
    (buffer : Buf) :
    ReadGuarded (ecReadMemoryWith xfer offset buffer length) offset length buffer ↔
      ¬ ReadWraps offset length := by
  have hoffset := offset.toNat_lt
  rw [ReadGuarded, Prog.returns_iff zeroPorts]
  unfold ReadWraps ecMemmapSize
  by_cases hguard : (offset + length).toNat > ecMemmapSize
  · refine iff_of_true (fun _ => ?_) ?_
    · rw [ecReadMemoryWith, if_pos hguard]
    · unfold ecMemmapSize at hguard
      have := sum_toNat offset length
      omega
  · by_cases hsum : offset.toNat + length.toNat ≤ 255
    · exact iff_of_true (fun h => by omega) (by omega)
    unfold ecMemmapSize at hguard
    have := sum_toNat offset length
    refine iff_of_false (fun h => ?_) (by omega)
    have hlength : length > 0 := UInt64.lt_iff_toNat_lt.2 (by simp only [UInt64.reduceToNat]; omega)
    have hpure := h (by omega)
    rw [ecReadMemoryWith, if_neg (by unfold ecMemmapSize; omega), if_pos hlength] at hpure
    obtain ⟨address, -, hpure⟩ := Prog.bind_eq_pure hpure
    obtain ⟨data, hdata, hpure⟩ := Prog.bind_eq_pure hpure
    injection hpure with hres
    have hcount := size_of_toInt (Prod.mk.inj hres).1
    exact hxfer _ _ _ _ (by omega) hdata

theorem sendGuarded_iff (xfer : EcTransfer) (u r outdata indata : Mem)
    (command version outsize insize : UInt64) :
    SendGuarded (ecSendCommandWith xfer u r command version outdata outsize indata insize) outsize
        indata ↔ outsize.toNat + sizeofEcHostRequest < 0x10000000000000000 := by
  rw [SendGuarded, Prog.returns_iff zeroPorts]
  unfold ecLpcHostPacketSize sizeofEcHostRequest
  by_cases hwrap : 2 ^ 64 - 8 ≤ outsize.toNat
  · refine iff_of_false (fun h => ?_) (by omega)
    have hpure := h (by omega)
    rw [sendCommand_wrapped xfer u r outdata indata command version outsize insize hwrap] at hpure
    cases hpure
  · refine iff_of_true (fun hbig => ?_) (by omega)
    have hguard : outsize + 8 > 256 := by
      rw [tooLarge_iff]
      simp only [gEcMaxRequest_eq]
      omega
    rw [ecSendCommandWith, if_pos hguard]

/-- **The size checks are exact exactly if the sums do not wrap.** -/
theorem sizeChecks_exact_iff (offset length : UInt64) (buffer : Buf) (u r outdata indata : Mem)
    (command version outsize insize : UInt64) :
    (ReadGuarded (Mec.ecReadMemoryMecLpc offset buffer length) offset length buffer ↔
      ¬ ReadWraps offset length) ∧
    (ReadGuarded (Azalea.ecReadMemory offset buffer length) offset length buffer ↔
      ¬ ReadWraps offset length) ∧
    (SendGuarded (Mec.ecSendCommandMecLpc u r command version outdata outsize indata insize) outsize
        indata ↔ outsize.toNat + sizeofEcHostRequest < 0x10000000000000000) ∧
    (SendGuarded (Azalea.ecSendCommand u r command version outdata outsize indata insize) outsize
        indata ↔ outsize.toNat + sizeofEcHostRequest < 0x10000000000000000) :=
  ⟨readGuarded_iff (fun _ _ _ _ hsize => Mec.ecTransfer_ne_pure hsize _ _ _ _) offset length buffer,
    readGuarded_iff (fun _ _ _ _ hsize => Azalea.ecTransfer_ne_pure hsize _ _ _) offset length buffer,
    sendGuarded_iff _ u r outdata indata command version outsize insize,
    sendGuarded_iff _ u r outdata indata command version outsize insize⟩

/-- A length of -16 passes the check at offset 32, and an `outsize` of -8 passes the other one. -/
theorem sizeChecks_inexact :
    ¬ ReadGuarded (Mec.ecReadMemoryMecLpc 0x20 ⟨fun _ => 0, 16⟩ 0xFFFFFFFFFFFFFFF0) 0x20
        0xFFFFFFFFFFFFFFF0 ⟨fun _ => 0, 16⟩ ∧
      ¬ ReadGuarded (Azalea.ecReadMemory 0x20 ⟨fun _ => 0, 16⟩ 0xFFFFFFFFFFFFFFF0) 0x20
        0xFFFFFFFFFFFFFFF0 ⟨fun _ => 0, 16⟩ ∧
      ¬ SendGuarded (Mec.ecSendCommandMecLpc (fun _ => 0) (fun _ => 0) 1 0 (fun _ => 0)
        0xFFFFFFFFFFFFFFF8 (fun _ => 0) 0) 0xFFFFFFFFFFFFFFF8 (fun _ => 0) ∧
      ¬ SendGuarded (Azalea.ecSendCommand (fun _ => 0) (fun _ => 0) 1 0 (fun _ => 0)
        0xFFFFFFFFFFFFFFF8 (fun _ => 0) 0) 0xFFFFFFFFFFFFFFF8 (fun _ => 0) := by
  have hwraps : ReadWraps 0x20 0xFFFFFFFFFFFFFFF0 := ⟨by decide, by decide⟩
  have hlarge : ¬ (0xFFFFFFFFFFFFFFF8 : UInt64).toNat + sizeofEcHostRequest < 0x10000000000000000 := by
    decide
  refine ⟨fun h => ?_, fun h => ?_, fun h => ?_, fun h => ?_⟩
  · exact (readGuarded_iff (fun _ _ _ _ hsize => Mec.ecTransfer_ne_pure hsize _ _ _ _) _ _ _).1 h hwraps
  · exact (readGuarded_iff (fun _ _ _ _ hsize => Azalea.ecTransfer_ne_pure hsize _ _ _) _ _ _).1 h hwraps
  · exact hlarge ((sendGuarded_iff _ _ _ _ _ _ _ _ _).1 h)
  · exact hlarge ((sendGuarded_iff _ _ _ _ _ _ _ _ _).1 h)

end FrameworkHacks.Transport
