import FrameworkHacks.Transport.Malformed

/-!
# Which responses are accepted

`struct ec_host_response` asks of a packet that its version is 3, its reserved field 0 and the sum of
all its bytes 0. The host looks at the sum only if there is data, so an empty response is accepted
whatever its checksum (`sendCommand_checked_iff`).
-/

namespace FrameworkHacks.Transport

open Effects

variable {σ D : Type}

/-- What `struct ec_host_response` asks of a packet with `n` bytes of data. -/
structure Intact (w : Mem) (n : Nat) : Prop where
  structVersion : w 0 = ecHostResponseVersion
  reserved : w.le16 6 = 0
  checksum : w.sum (8 + n) = 0

/-- `w` is `v` with another value in byte `i`, a header or data byte that is not part of `data_len`. -/
structure Corrupts (i : Nat) (v w : Mem) : Prop where
  inside : i < 8 + v.le16 4
  notLength : i ≠ 4 ∧ i ≠ 5
  changed : w i ≠ v i
  rest : ∀ j, j ≠ i → w j = v j

theorem Corrupts.not_intact {i : Nat} {v w : Mem} (h : Corrupts i v w) (hv : Intact v (v.le16 4)) :
    ¬ Intact w (w.le16 4) := by
  intro hw
  have hlen : w.le16 4 = v.le16 4 :=
    Mem.le16_congr (h.rest 4 h.notLength.1.symm) (h.rest 5 h.notLength.2.symm)
  have hset : w = v.set i (w i) := by
    funext j
    by_cases hj : j = i
    · rw [hj, Mem.set_same]
    · rw [Mem.set_ne v _ hj, h.rest j hj]
  have hsum := hw.checksum
  rw [hset, Mem.sum_set v _ (by rw [← hset, hlen]; exact h.inside), ← hset, hlen, hv.checksum] at hsum
  apply h.changed
  grind

/-- A count is returned only for an intact packet, which no corruption of an intact one is. -/
def Checked (h : Handler Io D) (p : Prog Io (Int × Mem)) (d : D) (packet : Option Window) : Prop :=
  ∀ rv indata' d', p.exec h d = (.ok (rv, indata'), d') → 0 ≤ rv →
    ∃ w ∈ packet, Intact w.mem rv.toNat ∧
      ∀ (i : Nat) (v : Window), Intact v.mem (v.mem.le16 4) → ¬ Corrupts i v.mem w.mem

/-- An empty response with a header the host accepts although its bytes do not sum to 0. -/
def EmptyUnchecked (w : Mem) : Prop :=
  w 0 = ecHostResponseVersion ∧ w.le16 6 = 0 ∧ w.le16 4 = 0 ∧ w.sum 8 ≠ 0

/-! ### One response -/

theorem code_pos (s : EcStatus) (h : s ≠ .success) : 0 < s.code := by
  cases s <;> first | exact absurd rfl h | decide

theorem decodeResponse_count {w indata : Mem} {insize : Nat} {res : Int × Mem}
    (h : decodeResponse w indata insize = some res) (hcount : 0 ≤ res.1) :
    res.1 = w.le16 4 ∧ (¬ EmptyUnchecked w → Intact w (w.le16 4)) := by
  have hcode := fun s hs => code_pos s hs
  simp only [decodeResponse] at h
  split_ifs at h with h0 h6 hbig hfit hsum <;> cases h
  · have := hcode .invalidHeaderVersion (by simp)
    simp only at hcount
    omega
  · have := hcode .invalidHeader (by simp)
    simp only at hcount
    omega
  · have := hcode .responseTooBig (by simp)
    simp only at hcount
    omega
  · have := hcode .invalidChecksum (by simp)
    simp only at hcount
    omega
  · refine ⟨rfl, fun hempty => ⟨not_not.1 h0, not_not.1 h6, ?_⟩⟩
    by_cases hlen : w.le16 4 > 0
    · exact not_not.1 fun hne => hsum ⟨hlen, hne⟩
    · have hzero : w.le16 4 = 0 := by omega
      rw [hzero]
      exact not_not.1 fun hne => hempty ⟨not_not.1 h0, not_not.1 h6, hzero, hne⟩

theorem EmptyUnchecked.decode {w : Mem} (h : EmptyUnchecked w) (indata : Mem) (insize : Nat) :
    decodeResponse w indata insize = some (0, indata) := by
  obtain ⟨h0, h6, hlen, -⟩ := h
  simp [decodeResponse, h0, h6, hlen]

/-! ### One exchange -/

theorem handshake_nonpos (ec : Ec σ) (command version : UInt64) (payload : Mem) (n : Nat)
    (l : Link σ) : (handshake ec command version payload n l).1 ≤ 0 := by
  have htimeout := code_pos .timeout (by simp)
  obtain hval | hval | ⟨i, hval⟩ := (handshake_cases ec command version payload n l).2
  · omega
  · omega
  · simp only [eecresult] at hval
    omega

theorem exchange_count {ec : Ec σ} {command version : UInt64} {payload : Mem} {outsize : UInt64}
    {indata : Mem} {insize : UInt64} {l : Link σ} {res : Int × Mem}
    (h : (exchange ec command version payload outsize indata insize l).1 = some res)
    (hcount : 0 ≤ res.1) : ∃ w ∈ responsePacket ec command version payload outsize l,
      decodeResponse w.mem indata insize.toNat = some res := by
  have hnonpos := handshake_nonpos ec command version payload outsize.toNat l
  unfold exchange at h
  unfold responsePacket
  split_ifs at h with htoo hbig
  · cases h
    have := code_pos .requestTruncated (by simp)
    simp only at hcount
    omega
  rw [if_neg hbig]
  generalize handshake ec command version payload outsize.toNat l = s at h hnonpos
  obtain ⟨rv, l₁⟩ := s
  simp only at h hnonpos ⊢
  split_ifs at h with hrv
  · cases h
    simp only at hcount
    omega
  · exact ⟨l₁.window, if_pos (not_not.1 hrv), h⟩

/-! ### The libraries -/

namespace Carries

variable {ec : Ec σ} {h : Handler Io D} {xfer : EcTransfer} {view : D → Link σ}

theorem checked_iff (hc : Carries ec h xfer view) (u r outdata indata : Mem)
    (command version outsize insize : UInt64) (d : D) :
    Checked h (ecSendCommandWith xfer u r command version outdata outsize indata insize) d
        (responsePacket ec command version outdata outsize (view d)) ↔
      ∀ w ∈ responsePacket ec command version outdata outsize (view d), ¬ EmptyUnchecked w.mem := by
  have hgives := hc.sendCommand u r command version outdata outsize indata insize d
  constructor
  · intro hchecked w hw hempty
    have hsome : (exchange ec command version outdata outsize indata insize (view d)).1 =
        some (0, indata) := by
      rw [exchange_of_packet hw]
      exact hempty.decode indata insize.toNat
    obtain ⟨d', hexec, -⟩ := hgives.some hsome
    obtain ⟨w', hw', hintact, -⟩ := hchecked 0 indata d' hexec (Int.le_refl 0)
    obtain rfl : w = w' := Option.mem_unique hw hw'
    exact hempty.2.2.2 hintact.checksum
  · intro hall rv indata' d' hexec hcount
    obtain ⟨res, hres⟩ : ∃ res,
        (exchange ec command version outdata outsize indata insize (view d)).1 = some res := by
      rw [← Option.ne_none_iff_exists']
      intro hnone
      obtain ⟨d₁, hfault, -⟩ := hgives.none hnone
      rw [hfault] at hexec
      cases hexec
    obtain ⟨d₁, hexec₁, -⟩ := hgives.some hres
    obtain rfl : res = (rv, indata') := by
      rw [hexec₁] at hexec
      cases hexec
      rfl
    obtain ⟨w, hw, hdecode⟩ := exchange_count hres hcount
    obtain ⟨hrv, hintact⟩ := decodeResponse_count hdecode hcount
    have hw' := hintact (hall w hw)
    refine ⟨w, hw, ?_, fun i v hv hcorrupt => hcorrupt.not_intact hv hw'⟩
    rw [show rv = w.mem.le16 4 from hrv, Int.toNat_natCast]
    exact hw'

end Carries

/-- **Accepted responses are checksum-valid exactly if the EC does not send an empty response with a
wrong checksum.** -/
theorem sendCommand_checked_iff (ec : Ec σ) (u r outdata indata : Mem)
    (command version outsize insize : UInt64) (d : Emi σ) (b : Bus σ) :
    (Checked (emi ec) (Mec.ecSendCommandMecLpc u r command version outdata outsize indata insize) d
        (responsePacket ec command version outdata outsize (Mec.link d)) ↔
      ∀ w ∈ responsePacket ec command version outdata outsize (Mec.link d),
        ¬ EmptyUnchecked w.mem) ∧
    (Checked (npcx ec) (Azalea.ecSendCommand u r command version outdata outsize indata insize) b
        (responsePacket ec command version outdata outsize (Azalea.link b)) ↔
      ∀ w ∈ responsePacket ec command version outdata outsize (Azalea.link b),
        ¬ EmptyUnchecked w.mem) :=
  ⟨(Mec.carries ec).checked_iff u r outdata indata command version outsize insize d,
    (Azalea.carries ec).checked_iff u r outdata indata command version outsize insize b⟩

/-- The header of an empty response, with 1 for its checksum. -/
def misfitPacket : Window := fun i =>
  if i.val = 0 then ecHostResponseVersion else if i.val = 1 then 1 else 0

/-- The host takes it for a success. -/
theorem sendCommand_unchecked :
    ¬ Checked (emi (promptEc misfitPacket)) (Mec.ecSendCommandMecLpc (fun _ => 0) (fun _ => 0) 0xD3 0
        (fun _ => 0) 0 (fun _ => 0) 0) ⟨⟨(), fun _ => 0, []⟩, 0⟩
        (responsePacket (promptEc misfitPacket) 0xD3 0 (fun _ => 0) 0
          (Mec.link ⟨⟨(), fun _ => 0, []⟩, 0⟩)) ∧
      ¬ Checked (npcx (promptEc misfitPacket)) (Azalea.ecSendCommand (fun _ => 0) (fun _ => 0) 0xD3 0
        (fun _ => 0) 0 (fun _ => 0) 0) ⟨(), fun _ => 0, []⟩
        (responsePacket (promptEc misfitPacket) 0xD3 0 (fun _ => 0) 0
          (Azalea.link ⟨(), fun _ => 0, []⟩)) := by
  have hpacket : ∀ l : Link Unit,
      misfitPacket ∈ responsePacket (promptEc misfitPacket) 0xD3 0 (fun _ => 0) 0 l :=
    responsePacket_promptEc misfitPacket 0xD3 0 (fun _ => 0) (by decide)
  have hempty : EmptyUnchecked misfitPacket.mem := ⟨rfl, rfl, rfl, by decide⟩
  constructor
  · rw [Mec.ecSendCommandMecLpc, (Mec.carries (promptEc misfitPacket)).checked_iff]
    exact fun h => h _ (hpacket _) hempty
  · rw [Azalea.ecSendCommand, (Azalea.carries (promptEc misfitPacket)).checked_iff]
    exact fun h => h _ (hpacket _) hempty

end FrameworkHacks.Transport
