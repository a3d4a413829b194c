import FrameworkHacks.Transport.CrosEC
import FrameworkHacks.Transport.Fetching

/-!
# Any answers from the ports

Nothing is assumed of the hardware here: every port read may give any value, at any time. A transfer that
fits its buffer still ends and stays inside it (`Sound`), so `SendCommand` and `ReadMemory` end, within
every object they touch, with what their callers rely on (`Honoured`, `yields_protocol`): a value they know,
in the buffer as many bytes as it says, which are those the ports returned, and nothing else changed.
-/

namespace FrameworkHacks.Transport

open Effects

/-! ### Transfers -/

/-- A transfer that fits the buffer ends, and the buffer keeps its size. -/
def Fits (xfer : EcTransfer) : Prop :=
  ∀ direction address data off size, off + Mec.reach address.toNat size.toNat ≤ data.size →
    (xfer direction address data off size).Finishes fun data' => data'.size = data.size

theorem finishes_transferByte (direction : Direction) (port : Nat) {data : Buf} {i : Nat} (hi : i < data.size) :
    (transferByte direction port data i).Finishes fun data' => data'.size = data.size := by
  cases direction with
  | write =>
    rw [transferByte, Buf.load_of_lt hi, pure_bind]
    exact fun _ => ⟨trivial, fun _ => rfl⟩
  | read =>
    unfold transferByte
    refine Prog.Holds.perform_bind fun v => ⟨trivial, fun _ => ?_⟩
    rw [Buf.store_of_lt _ hi]
    exact rfl

namespace Mec

theorem finishes_dword (direction : Direction) {data : Buf} {i : Nat} (hi : i + 4 ≤ data.size) :
    (transferDword direction data i).Finishes fun data' => data'.size = data.size := by
  cases direction with
  | write =>
    rw [transferDword, Buf.copyOut_of_le hi, pure_bind]
    exact fun _ => ⟨trivial, fun _ _ => ⟨trivial, fun _ => rfl⟩⟩
  | read =>
    unfold transferDword
    refine Prog.Holds.perform_bind fun v => ⟨trivial, fun _ => ?_⟩
    refine Prog.Holds.perform_bind fun w => ⟨trivial, fun _ => ?_⟩
    rw [Buf.copyIn_of_le _ hi]
    exact rfl

theorem finishes_head (direction : Direction) (address : UInt16) {data : Buf} {off : Nat}
    (hfit : off + pad address.toNat ≤ data.size) :
    (transferHead direction off ⟨0, address, data⟩).Finishes fun c =>
      c.pos = pad address.toNat ∧ c.data.size = data.size := by
  have hmod : (address % 4).toNat = address.toNat % 4 := by
    rw [UInt16.toNat_mod]
    rfl
  unfold transferHead
  by_cases hpad : address % 4 > 0
  · have hpos : 0 < address.toNat % 4 := by
      rw [← hmod]
      exact UInt16.lt_iff_toNat_lt.1 hpad
    rw [if_pos hpad]
    refine Prog.Holds.perform_bind fun _ => ⟨trivial, fun _ => ?_⟩
    simp only [hmod]
    refine Prog.Holds.bind (Prog.Holds.forRange (I := fun i s => i = address.toNat % 4 + s.1 ∧
      s.2.size = data.size) _ _ ?_ (0, data) ⟨rfl, rfl⟩) ?_
    · rintro i ⟨pos, data'⟩ - hi ⟨hpos', hsize⟩
      simp only at hpos' hsize
      have hin : off + pos < data'.size := by
        unfold pad at hfit
        omega
      refine (finishes_transferByte direction _ hin).bind fun data'' h => ⟨?_, h.trans hsize⟩
      simp only
      omega
    · rintro ⟨pos, data'⟩ ⟨hend, hsize⟩
      refine ⟨?_, hsize⟩
      simp only [pad] at hend ⊢
      omega
  · have hzero : address.toNat % 4 = 0 := by
      have := mt UInt16.lt_iff_toNat_lt.2 hpad
      rw [hmod] at this
      simpa using this
    rw [if_neg hpad]
    exact ⟨by simp [pad, hzero], rfl⟩

/-- What is left of a transfer is inside the buffer. -/
def Inbounds (off : Nat) (size : UInt16) (n : Nat) (c : Cursor) : Prop :=
  c.data.size = n ∧ off + max size.toNat c.pos ≤ n

theorem finishes_body (direction : Direction) {off n : Nat} {size : UInt16} {c : Cursor}
    (hc : Inbounds off size n c) : (transferBody direction off size c).Finishes (Inbounds off size n) := by
  unfold transferBody
  split
  · refine Prog.Holds.perform_bind fun _ => ⟨trivial, fun _ => ?_⟩
    refine Prog.Holds.loop_lt (I := Inbounds off size n) (fun c => size.toNat - c.pos) ?_ _ _ hc (by omega)
    rintro c ⟨hsize, hfit⟩
    unfold dwordRound
    split
    · have hin : off + c.pos + 4 ≤ c.data.size := by omega
      refine (finishes_dword direction hin).bind fun data' h => ⟨⟨h.trans hsize, ?_⟩, ?_⟩
      · simp only
        omega
      · simp only
        omega
    · exact ⟨hsize, hfit⟩
  · exact hc

theorem finishes_tail (direction : Direction) {off n : Nat} {size : UInt16} {c : Cursor}
    (hc : Inbounds off size n c) :
    (transferTail direction off size c).Finishes fun data' => data'.size = n := by
  obtain ⟨hsize, hfit⟩ := hc
  unfold transferTail
  split
  · refine Prog.Holds.perform_bind fun _ => ⟨trivial, fun _ => ?_⟩
    refine Prog.Holds.forRange (I := fun _ data' => data'.size = n) 0 (size.toNat - c.pos) ?_ c.data hsize
    intro i data' _ hi hsize'
    exact (finishes_transferByte direction _ (by omega)).post fun data'' h => h.trans hsize'
  · exact hsize

theorem fits : Fits ecTransfer := by
  intro direction address data off size hfit
  unfold reach at hfit
  unfold ecTransfer
  refine (finishes_head direction address (by omega)).bind fun c hc => ?_
  have hfits : Inbounds off size data.size c := ⟨hc.2, by omega⟩
  exact (finishes_body direction hfits).bind fun c hc => finishes_tail direction hc

end Mec

theorem Azalea.fits : Fits ecTransfer := by
  intro direction address data off size hfit
  unfold Mec.reach at hfit
  unfold ecTransfer
  refine Prog.Holds.forRange (I := fun _ data' => data'.size = data.size) 0 size.toNat ?_ data rfl
  intro i data' _ hi hsize
  exact (finishes_transferByte direction _ (by omega)).post fun data'' h => h.trans hsize

/-- All that the protocol needs of its transfer. -/
structure Sound (xfer : EcTransfer) : Prop where
  fits : Fits xfer
  fetches : Fetches xfer

theorem Mec.sound : Sound ecTransfer := ⟨fits, fetches⟩

theorem Azalea.sound : Sound ecTransfer := ⟨fits, fetches⟩

/-- The program finishes, and its result and history satisfy `Q`. -/
abbrev Yields {α : Type} (Q : α → Trace Io → Prop) (p : Prog Io α) (pre : Trace Io) : Prop :=
  Prog.Along (fun _ => False) (fun _ => True) (fun _ _ => True) Q p pre

theorem Sound.read {xfer : EcTransfer} (hx : Sound xfer) {address : UInt16} {data : Buf} {off : Nat} {size : UInt16}
    (hfit : off + size.toNat ≤ data.size) (hpad : Mec.pad address.toNat ≤ size.toNat) (pre : Trace Io) :
    Yields (Brought pre off data size.toNat) (xfer .read address data off size) pre := by
  have hreach : Mec.reach address.toNat size.toNat = size.toNat := Nat.max_eq_left hpad
  exact ((hx.fits .read address data off size (by rwa [hreach])).and_along
    (hx.fetches address data off size pre hpad)).post fun _ _ h => h.2

/-! ### The ready-wait -/

theorem finishes_wait (statusAddr : Nat) {timeoutUsec : Int} (hmax : timeoutUsec ≤ 2147473647) :
    (ecWaitForReady statusAddr timeoutUsec).Finishes fun rv => rv = 0 ∨ rv = -1 := by
  refine Prog.Holds.loop_lt (I := fun s => 0 ≤ s.1 ∧ 5 ≤ s.2 ∧ s.2 ≤ 10000)
    (fun s => (timeoutUsec - s.1).toNat) ?_ _ _ ⟨Int.le_refl 0, Int.le_refl 5, by decide⟩ (by simp)
  rintro ⟨i, delay⟩ ⟨hi, hlo, hhi⟩
  simp only at hi hlo hhi
  rw [waitRound]
  by_cases htime : i < timeoutUsec
  · simp only [if_pos htime]
    refine Prog.Holds.perform_bind fun _ => ⟨trivial, fun _ => ?_⟩
    refine Prog.Holds.perform_bind fun status => ⟨trivial, fun _ => ?_⟩
    split
    · exact Or.inl rfl
    · have hdelay : 5 ≤ (if i > 20 then min (delay * 2) 10000 else delay) ∧
          (if i > 20 then min (delay * 2) 10000 else delay) ≤ 10000 := by
        split <;> omega
      rw [addInt_of_le (by omega) (by omega), pure_bind]
      refine ⟨⟨?_, hdelay⟩, ?_⟩
      · simp only
        omega
      · simp only
        omega
  · simp only [if_neg htime]
    exact Or.inr rfl

/-! ### SendCommand -/

/-- The errors `SendCommand` finds by itself. -/
def ownErrors : List EcStatus :=
  [.requestTruncated, .timeout, .invalidHeaderVersion, .invalidHeader, .responseTooBig, .invalidChecksum]

/-- A negative value of `SendCommand`: an error of its own, or a result byte of the EC. -/
def Refusal (rv : Int) : Prop :=
  (∃ s ∈ ownErrors, rv = -s.code) ∨ ∃ i : UInt8, i ≠ 0 ∧ rv = -eecresult - i.toNat

/-- What the callers of `SendCommand` rely on: a negative value is a refusal and leaves the buffer alone; any
other is the number of the bytes stored, no more than `insize`, which are the last ones that the ports returned. -/
def Answered (indata : Mem) (insize : Nat) (res : Int × Mem) (t : Trace Io) : Prop :=
  (Refusal res.1 ∧ res.2 = indata) ∨
    ∃ data, data <:+ fetched t ∧ data.length ≤ insize ∧ res = ((data.length : Int), indata.overlay data)

theorem Answered.refused {s : EcStatus} (h : s ∈ ownErrors) (indata : Mem) (insize : Nat) (t : Trace Io) :
    Answered indata insize (-s.code, indata) t :=
  .inl ⟨.inl ⟨s, h, rfl⟩, rfl⟩

theorem yields_checksum {data : Buf} {size : Nat} (h : size ≤ data.size) (pre : Trace Io) :
    Yields (fun _ t => t = pre) (ecChecksumBuffer data size) pre := by
  refine Prog.Along.forRange (I := fun _ _ t => t = pre) 0 size ?_ 0 pre rfl
  intro i sum t _ hi ht
  rw [Buf.load_of_lt (by omega), pure_bind]
  exact ht

theorem finishes_checksum {data : Buf} {size : Nat} (h : size ≤ data.size) :
    (ecChecksumBuffer data size).Finishes fun _ => True := by
  refine Prog.Holds.forRange (I := fun _ _ => True) 0 size ?_ 0 trivial
  intro i sum _ hi _
  rw [Buf.load_of_lt (by omega), pure_bind]
  trivial

theorem finishes_fill (u : Mem) (command version : UInt64) (outdata : Mem) {outsize : UInt64}
    (hout : outsize.toNat ≤ gEcMaxRequest) :
    (fillRequest u command version outdata outsize).Finishes fun u' => u'.size = ecLpcHostPacketSize := by
  rw [gEcMaxRequest_eq] at hout
  have hsize : (outsize + 8).toNat ≤ ecLpcHostPacketSize := by
    rw [UInt64.toNat_add]
    simp only [ecLpcHostPacketSize, UInt64.toNat_ofNat]
    omega
  have hfit : sizeofEcHostRequest + outsize.toNat ≤ ecLpcHostPacketSize := by
    simp only [sizeofEcHostRequest, ecLpcHostPacketSize]
    omega
  simp only [fillRequest]
  rw [Buf.copyIn_of_le (b := ⟨requestHeader u command version outsize, ecLpcHostPacketSize⟩) outdata hfit, pure_bind]
  refine (finishes_checksum hsize).bind fun csum _ => ?_
  rw [Buf.store_of_lt _ (by decide : 1 < ecLpcHostPacketSize)]
  rfl

variable {xfer : EcTransfer}

theorem yields_receive (hx : Sound xfer) (r indata : Mem) {insize : UInt64}
    (hin : insize.toNat ≤ gEcMaxResponse) (pre : Trace Io) :
    Yields (Answered indata insize.toNat) (receiveResponse xfer r indata insize) pre := by
  rw [gEcMaxResponse_eq] at hin
  unfold receiveResponse
  refine (hx.read (by decide : 0 + (8 : UInt16).toNat ≤ ecLpcHostPacketSize) (by decide) pre).bind ?_
  rintro r' t ⟨header, -, -, rfl⟩
  simp only []
  split
  · exact Answered.refused (by decide) _ _ _
  split
  · exact Answered.refused (by decide) _ _ _
  split
  · exact Answered.refused (by decide) _ _ _
  rename_i hlen
  generalize (Buf.patch ⟨r, ecLpcHostPacketSize⟩ 0 header).bytes.le16 4 = dataLen at hlen
  split
  · have hdata : (UInt16.ofNat dataLen).toNat = dataLen := by
      rw [UInt16.toNat_ofNat', Nat.mod_eq_of_lt (by omega)]
    have hfit : sizeofEcHostResponse + dataLen ≤ ecLpcHostPacketSize := by
      simp only [sizeofEcHostResponse, ecLpcHostPacketSize]
      omega
    have hpad : Mec.pad (8 : UInt16).toNat = 0 := rfl
    refine (hx.read (by rwa [hdata]) (by omega) t).bind ?_
    rintro r'' t' ⟨data, hlength, hgot, rfl⟩
    rw [hdata] at hlength
    refine (yields_checksum hfit t').bind ?_
    rintro csum t'' rfl
    split
    · exact Answered.refused (by decide) _ _ _
    · refine .inr ⟨data, ⟨_, hgot.symm⟩, by omega, ?_⟩
      rw [hlength, ← Mem.patch_zero, Mem.patch, hlength]
      refine congrArg (Prod.mk _) (Mem.copy_congr fun i hi => ?_)
      rw [← hlength] at hi
      exact Mem.copy_in _ _ hi
  · exact .inr ⟨[], List.nil_suffix, by simp, by
      rw [← Mem.patch_zero, Mem.patch_nil, List.length_nil, show dataLen = 0 by omega]⟩

/-- **Whatever the ports answer, `SendCommand` ends inside its buffers with what its callers rely on.** -/
theorem yields_sendCommand (hx : Sound xfer) (u r : Mem) (command version : UInt64) (outdata : Mem)
    {outsize : UInt64} (indata : Mem) {insize : UInt64} (hout : outsize.toNat ≤ gEcMaxRequest)
    (hin : insize.toNat ≤ gEcMaxResponse) (pre : Trace Io) :
    Yields (Answered indata insize.toNat)
      (ecSendCommandWith xfer u r command version outdata outsize indata insize) pre := by
  have hout' : outsize.toNat ≤ 248 := hout
  have hsize : (outsize + 8).toUInt16.toNat = outsize.toNat + 8 := by
    simp only [UInt64.toNat_toUInt16, UInt64.toNat_add, UInt64.toNat_ofNat]
    omega
  have hpad : Mec.pad (0 : UInt16).toNat = 0 := rfl
  unfold ecSendCommandWith
  split
  · exact Answered.refused (by decide) _ _ _
  refine ((finishes_fill u command version outdata hout).after _).bind fun u' t hu' => ?_
  refine ((finishes_wait ecLpcAddrHostCmd (by decide)).after _).bind fun rv t _ => ?_
  split
  · exact Answered.refused (by decide) _ _ _
  refine ((hx.fits .write 0 u' 0 _ ?_).after _).bind fun _ t _ => ?_
  · rw [hu', Mec.reach, hsize, hpad]
    simp only [ecLpcHostPacketSize]
    omega
  refine Prog.Along.perform_bind fun _ => ⟨trivial, fun _ => ?_⟩
  refine ((finishes_wait ecLpcAddrHostCmd (by decide)).after _).bind fun rv t _ => ?_
  split
  · exact Answered.refused (by decide) _ _ _
  refine Prog.Along.perform_bind fun i => ⟨trivial, fun _ => ?_⟩
  split
  · rename_i hi
    exact Or.inl ⟨.inr ⟨i, hi, rfl⟩, rfl⟩
  · exact yields_receive hx r indata hin _

/-! ### ReadMemory -/

theorem yields_readMemory (hx : Sound xfer) {offset length : UInt64} {buffer : Buf}
    (h : Plain (.readMemory offset buffer length)) (pre : Trace Io) :
    Yields (fun res t => ∃ data, Brought pre 0 buffer length.toNat data t ∧ res = ((length.toNat : Int), data))
      (ecReadMemoryWith xfer offset buffer length) pre := by
  obtain ⟨hpos, hsum, hsize, hpad⟩ := h
  have hsum' : offset.toNat + length.toNat ≤ 255 := hsum
  have haddress : (UInt16.ofInt (0x100 + offset.toNat : Nat)).toNat = 0x100 + offset.toNat := by
    rw [ofInt_natCast (by omega), UInt16.toNat_ofNat', Nat.mod_eq_of_lt (by omega)]
  have hlength : (UInt16.ofNat length.toNat).toNat = length.toNat := by
    rw [UInt16.toNat_ofNat', Nat.mod_eq_of_lt (by omega)]
  rw [ReadsMap.ecReadMemoryWith_bytes xfer buffer hsum hpos]
  refine (hx.read (by rw [hlength]; omega) ?_ pre).bind fun data t hdata => ?_
  · rw [haddress, hlength]
    unfold Mec.pad at hpad ⊢
    omega
  · rw [hlength] at hdata
    exact ⟨data, hdata, rfl⟩

/-! ### The protocol -/

/-- What a call of the protocol may rely on, with the port accesses that it was carried out by. -/
def Honoured : Event CrosEc → Trace Io → Prop
  | ⟨.sendCommand _ _ _ _ indata insize, res⟩, t => Answered indata insize.toNat res t
  | ⟨.readMemory _ buffer length, res⟩, t =>
    (fetched t).length = length.toNat ∧ res = ((length.toNat : Int), buffer.patch 0 (fetched t))

theorem yields_protocol (hx : Sound xfer) (u r : Mem) (op : CrosEcOp) (h : WithinLimits op) :
    Yields (fun x t => Honoured ⟨op, x⟩ t) (protocolWith xfer u r op) [] := by
  cases op with
  | sendCommand command version outdata outsize indata insize =>
    exact yields_sendCommand hx u r command version outdata indata h.1 h.2 []
  | readMemory offset buffer length =>
    refine (yields_readMemory hx h []).post ?_
    rintro res t ⟨data, ⟨got, hlength, hgot, rfl⟩, rfl⟩
    have hfetched : fetched t = got := hgot
    rw [← hfetched] at hlength ⊢
    exact ⟨hlength, rfl⟩

end FrameworkHacks.Transport
