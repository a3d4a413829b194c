import FrameworkHacks.Transport.Exchange

/-!
# A transport carries the exchange

`Carries ec h xfer view`: on the device `h`, the library's `ECTransfer` moves bytes between a buffer
and the window as `Link` does. Nothing else about a library enters the main result,
`Carries.sendCommand`: running `ECSendCommand` gives what `exchange` says.
-/

namespace FrameworkHacks.Transport

open Effects

variable {σ D : Type}

/-- The device `h` with the library function `xfer` behaves, seen through `view`, as the link. -/
structure Carries (ec : Ec σ) (h : Handler Io D) (xfer : EcTransfer) (view : D → Link σ) : Prop where
  stall : ∀ n d, h (.stall n) d = .ok ((), d)
  status : ∀ d, ∃ d', h (.ioRead8 ecLpcAddrHostCmd) d = .ok (((view d).status ec).1, d') ∧
    view d' = ((view d).status ec).2
  result : ∀ d, ∃ d', h (.ioRead8 ecLpcAddrHostData) d = .ok (((view d).result ec).1, d') ∧
    view d' = ((view d).result ec).2
  command : ∀ v d, ∃ d', h (.ioWrite8 ecLpcAddrHostCmd v) d = .ok ((), d') ∧
    view d' = (view d).command ec v
  write : ∀ (data : Buf) n d, n ≤ 256 → n ≤ data.size →
    Prog.Ends h (xfer .write 0 data 0 (UInt16.ofNat n)) d
      (fun _ d' => view d' = (view d).write data.bytes n)
  read : ∀ a (data : Buf) off n d, a % 4 = 0 → a + n ≤ 256 → off + n ≤ data.size →
    Prog.Ends h (xfer .read (UInt16.ofNat a) data off (UInt16.ofNat n)) d
      (fun data' d' => data' = ⟨data.bytes.copy off ((view d).window.mem.drop a) n, data.size⟩ ∧
        view d' = (view d).fetch a n)
  readPast : ∀ a (data : Buf) off n d, 0 < n → n < 65536 → data.size < off + n →
    ∃ d', (xfer .read a data off (UInt16.ofNat n)).exec h d = (.error .fault, d') ∧
      (view d).reads <+: (view d').reads

/-! ### The checksum -/

theorem ofInt_charVal (b : UInt8) : UInt8.ofInt (charVal b) = b := by
  apply UInt8.toNat_inj.1
  have h : charVal b = b.toBitVec.toInt := rfl
  rw [UInt8.ofInt, UInt8.toNat_ofNat', h, BitVec.toInt_eq_toNat_cond]
  have := b.toNat_lt
  simp only [UInt8.toNat_toBitVec]
  split <;> omega

theorem addChar_eq (sum b : UInt8) : UInt8.ofInt (sum.toNat + charVal b) = sum + b := by
  rw [UInt8.ofInt_add, ofInt_charVal]
  congr 1
  apply UInt8.toNat_inj.1
  rw [UInt8.ofInt, UInt8.toNat_ofNat']
  have := sum.toNat_lt
  omega

theorem checksum_loop (data : Buf) (lo n : Nat) (h : lo + n ≤ data.size) :
    Prog.forRange (fun i (sum : UInt8) => do
      let c ← data.load i
      return UInt8.ofInt (sum.toNat + charVal c)) lo n (data.bytes.sum lo) =
      (pure (data.bytes.sum (lo + n)) : Prog Io UInt8) := by
  induction n generalizing lo with
  | zero => rfl
  | succ n ih =>
    rw [Prog.forRange_succ, Buf.load_of_lt (by omega), pure_bind, pure_bind, addChar_eq,
      ← Mem.sum, ih (lo + 1) (by omega)]
    congr 2
    omega

theorem ecChecksumBuffer_eq (data : Buf) (size : Nat) (h : size ≤ data.size) :
    ecChecksumBuffer data size = pure (data.bytes.sum size) := by
  have := checksum_loop data 0 size (by omega)
  rwa [Nat.zero_add] at this

/-! ### The request packet -/

theorem uint16_toNat (x : UInt64) : x.toUInt16.toNat = x.toNat % 65536 := by
  simp

theorem outsize_add (outsize : UInt64) (hn : outsize.toNat ≤ gEcMaxRequest) :
    (outsize + 8).toNat = outsize.toNat + 8 := by
  rw [UInt64.toNat_add]
  simp [gEcMaxRequest_eq] at hn ⊢
  omega

/-- The size check lets the eight largest sizes through, at which its sum wraps. -/
theorem tooLarge_iff (outsize : UInt64) :
    outsize + 8 > 256 ↔ gEcMaxRequest < outsize.toNat ∧ outsize.toNat < 2 ^ 64 - 8 := by
  have hlt := outsize.toNat_lt
  rw [gt_iff_lt, UInt64.lt_iff_toNat_lt, UInt64.toNat_add]
  simp only [UInt64.reduceToNat, gEcMaxRequest_eq]
  omega

theorem packetLength (outsize : UInt64) (hn : outsize.toNat ≤ gEcMaxRequest) :
    (outsize + 8).toUInt16 = UInt16.ofNat (outsize.toNat + 8) := by
  apply UInt16.toNat_inj.1
  rw [uint16_toNat, outsize_add outsize hn, UInt16.toNat_ofNat']

theorem requestHeader_eq (u : Mem) (command version outsize : UInt64) (payload : Mem)
    (hn : outsize.toNat ≤ gEcMaxRequest) (i : Nat) (hi : i < outsize.toNat + 8) :
    ((requestHeader u command version outsize).copy 8 payload outsize.toNat) i =
      rawPacket command version payload outsize.toNat i := by
  have hlen : outsize.toUInt16.toNat = outsize.toNat := by
    rw [uint16_toNat, Nat.mod_eq_of_lt (by rw [gEcMaxRequest_eq] at hn; omega)]
  by_cases h8 : 8 ≤ i
  · obtain ⟨k, rfl⟩ : ∃ k, i = 8 + k := ⟨i - 8, by omega⟩
    rw [Mem.copy_in _ _ (by omega), Nat.add_comm 8 k, rawPacket]
  · rw [Mem.copy_out _ _ (by omega)]
    have hcases : i = 0 ∨ i = 1 ∨ i = 2 ∨ i = 3 ∨ i = 4 ∨ i = 5 ∨ i = 6 ∨ i = 7 := by omega
    rcases hcases with rfl | rfl | rfl | rfl | rfl | rfl | rfl | rfl
    all_goals simp [requestHeader, rawPacket, Mem.set, Mem.set16, hlen]

theorem requestPacket_sum (command version : UInt64) (payload : Mem) (n : Nat) :
    (requestPacket command version payload n).sum (n + 8) = 0 := by
  rw [requestPacket, Mem.sum_set _ _ (by omega : 1 < n + 8)]
  simp only [rawPacket]
  grind

theorem fillRequest_eq (u : Mem) (command version outsize : UInt64) (outdata : Mem)
    (hn : outsize.toNat ≤ gEcMaxRequest) :
    ∃ b : Mem, fillRequest u command version outdata outsize = pure ⟨b, ecLpcHostPacketSize⟩ ∧
      ∀ i < outsize.toNat + 8, b i = requestPacket command version outdata outsize.toNat i := by
  have hsize : outsize.toNat + 8 ≤ ecLpcHostPacketSize := by
    simp only [gEcMaxRequest_eq, ecLpcHostPacketSize] at hn ⊢
    omega
  have hraw := requestHeader_eq u command version outsize outdata hn
  unfold fillRequest
  simp only [sizeofEcHostRequest]
  rw [Buf.copyIn_of_le _ (by simpa [Nat.add_comm] using hsize), pure_bind,
    ecChecksumBuffer_eq _ _ (by rw [outsize_add outsize hn]; exact hsize), pure_bind,
    Buf.store_of_lt _ (by simp [ecLpcHostPacketSize])]
  refine ⟨_, rfl, fun i hi => ?_⟩
  simp only [outsize_add outsize hn, requestPacket, Mem.sum_congr hraw]
  by_cases h1 : i = 1
  · subst h1
    simp
  · rw [Mem.set_ne _ _ h1, Mem.set_ne _ _ h1, hraw i hi]

/-- A size that passes the check only because the sum wraps: the payload does not fit. -/
theorem fillRequest_fault (u : Mem) (command version outsize : UInt64) (outdata : Mem)
    (hn : gEcMaxRequest < outsize.toNat) :
    fillRequest u command version outdata outsize = .fault := by
  unfold fillRequest
  simp only [gEcMaxRequest, sizeofEcHostRequest, ecLpcHostPacketSize] at hn ⊢
  rw [Buf.copyIn, if_neg (by simp only []; omega)]
  rfl

/-! ### The ready-wait -/

namespace Carries

variable {ec : Ec σ} {h : Handler Io D} {xfer : EcTransfer} {view : D → Link σ}

theorem wait_loop (hc : Carries ec h xfer view) (timeoutUsec : Int) (fuel : Nat) (i delay : Int)
    (d : D) (htime : timeoutUsec ≤ 2147473647) (hi : 0 ≤ i) (hdelay : 5 ≤ delay ∧ delay ≤ 10000)
    (hfuel : timeoutUsec - i < fuel) (hpos : 0 < fuel) :
    Prog.Ends h (Prog.loop (waitRound ecLpcAddrHostCmd timeoutUsec) fuel (i, delay)) d
      (fun rv d' =>
        let s := (view d).await ec (pollsFrom timeoutUsec fuel i delay)
        rv = (bif s.1 then 0 else -1) ∧ view d' = s.2) := by
  induction fuel generalizing i delay d with
  | zero => omega
  | succ fuel ih =>
    rw [Prog.loop_succ, pollsFrom, waitRound]
    simp only []
    by_cases hlt : i < timeoutUsec
    · rw [if_pos hlt, if_pos hlt]
      simp only [bind_assoc]
      refine Prog.Ends.perform_bind (hc.stall _ d) ?_
      obtain ⟨d₁, hd₁, hv₁⟩ := hc.status d
      apply Prog.Ends.perform_bind hd₁
      by_cases hready : ((view d).status ec).1 &&& ecLpcStatusBusyMask = 0
      · rw [if_pos hready, Link.await_ready _ hready]
        exact .pure ⟨rfl, hv₁⟩
      · rw [if_neg hready, Link.await_busy _ hready, ← hv₁]
        set delay' := if i > 20 then min (delay * 2) 10000 else delay with hdelay'
        have hd' : 5 ≤ delay' ∧ delay' ≤ 10000 := by
          rw [hdelay']
          split <;> omega
        have hsum : addInt i delay' = (pure (i + delay') : Prog Io Int) := if_pos (by omega)
        simp only [hsum, pure_bind]
        exact ih (i + delay') delay' d₁ (by omega) hd' (by omega) (by omega)
    · rw [if_neg hlt, if_neg hlt]
      exact .pure ⟨rfl, rfl⟩

theorem wait (hc : Carries ec h xfer view) (d : D) :
    Prog.Ends h (ecWaitForReady ecLpcAddrHostCmd 1000000) d
      (fun rv d' => rv = (bif ((view d).await ec readyPolls).1 then 0 else -1) ∧
        view d' = ((view d).await ec readyPolls).2) := by
  unfold readyPolls
  exact hc.wait_loop 1000000 1000001 0 5 d (by decide) (by decide) (by decide) (by decide) (by decide)

/-! ### The command -/

/-- Running `p` gives what the exchange says: its result and the link afterwards, or a fault, at
which the host has made at least the reads the exchange tells of. -/
def Gives (h : Handler Io D) (view : D → Link σ) (p : Prog Io (Int × Mem)) (d : D)
    (e : Option (Int × Mem) × Link σ) : Prop :=
  match e.1 with
  | some res => Prog.Ends h p d fun a d' => a = res ∧ view d' = e.2
  | none => ∃ d', p.exec h d = (.error .fault, d') ∧ e.2.reads <+: (view d').reads

theorem Gives.some {p : Prog Io (Int × Mem)} {d : D} {e : Option (Int × Mem) × Link σ}
    {res : Int × Mem} (hp : Gives h view p d e) (he : e.1 = some res) :
    ∃ d', p.exec h d = (.ok res, d') ∧ view d' = e.2 := by
  rw [Gives, he] at hp
  obtain ⟨_, d', hexec, rfl, hview⟩ := hp
  exact ⟨d', hexec, hview⟩

theorem Gives.none {p : Prog Io (Int × Mem)} {d : D} {e : Option (Int × Mem) × Link σ}
    (hp : Gives h view p d e) (he : e.1 = none) :
    ∃ d', p.exec h d = (.error .fault, d') ∧ e.2.reads <+: (view d').reads := by
  rwa [Gives, he] at hp

theorem Gives.pure {res : Int × Mem} {d : D} {l : Link σ} (hl : view d = l) :
    Gives h view (pure res) d (.some res, l) :=
  Prog.Ends.pure ⟨rfl, hl⟩

theorem Gives.bind {α : Type} {p : Prog Io α} {f : α → Prog Io (Int × Mem)} {d : D}
    {Q : α → D → Prop} {e : Option (Int × Mem) × Link σ} (hp : Prog.Ends h p d Q)
    (hf : ∀ a d', Q a d' → Gives h view (f a) d' e) : Gives h view (p >>= f) d e := by
  rcases e with ⟨_ | res, l⟩
  · obtain ⟨a, d', hp, hQ⟩ := hp
    simp only [Gives]
    rw [Prog.exec_bind_ok hp]
    exact hf a d' hQ
  · exact Prog.Ends.bind hp hf

theorem Gives.fault {α : Type} {p : Prog Io α} {f : α → Prog Io (Int × Mem)} {d d' : D} {l : Link σ}
    (hp : p.exec h d = (.error .fault, d')) (hreads : l.reads <+: (view d').reads) :
    Gives h view (p >>= f) d (.none, l) :=
  ⟨d', Prog.exec_bind_error hp, hreads⟩

theorem receive_data (hc : Carries ec h xfer view) (r₁ indata : Mem) (n : Nat) (d₁ : D)
    (hsmall : 8 + n ≤ 256) (hheader : ∀ i < 8, r₁ i = (view d₁).window.mem i) :
    Gives h view (do
      let r ← xfer .read 8 ⟨r₁, ecLpcHostPacketSize⟩ sizeofEcHostResponse (UInt16.ofNat n)
      if (← ecChecksumBuffer r (sizeofEcHostResponse + n)) ≠ 0 then
        return (-EcStatus.invalidChecksum.code, indata)
      return (n, indata.copy 0 (r.bytes.drop sizeofEcHostResponse) n)) d₁
      (some (if (view d₁).window.mem.sum (8 + n) ≠ 0 then (-EcStatus.invalidChecksum.code, indata)
        else (n, indata.copy 0 ((view d₁).window.mem.drop 8) n)), (view d₁).fetch 8 n) := by
  refine Gives.bind (hc.read 8 _ _ _ d₁ (by decide) (by omega) hsmall) ?_
  rintro _ d₂ ⟨rfl, hd₂⟩
  set w := (view d₁).window.mem with hw
  -- with the header before it, the buffer is the packet
  have hin : ∀ i < 8 + n, r₁.copy sizeofEcHostResponse (w.drop 8) n i = w i := by
    intro i hi
    simp only [sizeofEcHostResponse]
    by_cases h8 : i < 8
    · rw [Mem.copy_out _ _ (.inl h8), hheader i h8]
    · obtain ⟨k, rfl⟩ : ∃ k, i = 8 + k := ⟨i - 8, by omega⟩
      rw [Mem.copy_in _ _ (by omega), Mem.drop_apply]
  rw [ecChecksumBuffer_eq _ _ hsmall, pure_bind]
  simp only [show sizeofEcHostResponse = 8 from rfl] at hin ⊢
  rw [Mem.sum_congr hin]
  by_cases hsum : w.sum (8 + n) ≠ 0
  · rw [if_pos hsum, if_pos hsum]
    exact .pure hd₂
  · rw [if_neg hsum, if_neg hsum, Mem.copy_congr (t := w.drop 8) fun i hi => by
      rw [Mem.drop_apply, Mem.drop_apply, hin _ (by omega)]]
    exact .pure hd₂

theorem receive (hc : Carries ec h xfer view) (r indata : Mem) (insize : UInt64) (d : D) :
    Gives h view (receiveResponse xfer r indata insize) d
      (decodeResponse (view d).window.mem indata insize.toNat,
        responseReads (view d).window.mem insize.toNat (view d)) := by
  unfold receiveResponse
  refine Gives.bind (hc.read 0 ⟨r, ecLpcHostPacketSize⟩ 0 8 d (by decide) (by decide)
    (by simp [ecLpcHostPacketSize])) ?_
  rintro _ d₁ ⟨rfl, hd₁⟩
  set w := (view d).window.mem with hw
  have hcopy : ∀ i < 8, r.copy 0 (w.drop 0) 8 i = w i := fun i hi => by
    rw [Mem.drop_zero]
    exact Mem.copy_front r w hi
  have hlen : (r.copy 0 (w.drop 0) 8).le16 4 = w.le16 4 :=
    Mem.le16_congr (hcopy 4 (by omega)) (hcopy 5 (by omega))
  have hres : (r.copy 0 (w.drop 0) 8).le16 6 = w.le16 6 :=
    Mem.le16_congr (hcopy 6 (by omega)) (hcopy 7 (by omega))
  simp only [hcopy 0 (by omega), hlen, hres, decodeResponse]
  by_cases h0 : w 0 = ecHostResponseVersion
  swap
  · rw [if_pos h0, if_pos h0, responseReads_header _ fun hh => h0 hh.1]
    exact .pure hd₁
  rw [if_neg (not_not.2 h0), if_neg (not_not.2 h0)]
  by_cases h6 : w.le16 6 = 0
  swap
  · rw [if_pos h6, if_pos h6, responseReads_header _ fun hh => h6 hh.2.1]
    exact .pure hd₁
  rw [if_neg (not_not.2 h6), if_neg (not_not.2 h6)]
  by_cases hbig : w.le16 4 > insize.toNat
  · rw [if_pos hbig, if_pos hbig, responseReads_header _ fun hh => by omega]
    exact .pure hd₁
  rw [if_neg hbig, if_neg hbig]
  have h16 : w.le16 4 < 65536 := w.le16_lt 4
  by_cases hfit : w.le16 4 > gEcMaxResponse
  · have hpos : w.le16 4 > 0 := by omega
    rw [if_pos hpos, if_pos hfit, responseReads_header _ fun hh => by omega]
    obtain ⟨d₂, hfault, hreads⟩ := hc.readPast 8
      ⟨r.copy 0 (w.drop 0) 8, ecLpcHostPacketSize⟩ sizeofEcHostResponse (w.le16 4) d₁ hpos h16 (by
        simp only [gEcMaxResponse_eq, ecLpcHostPacketSize, sizeofEcHostResponse] at hfit ⊢
        omega)
    exact Gives.fault hfault (by rwa [hd₁] at hreads)
  rw [if_neg hfit, responseReads_data _ ⟨h0, h6, by omega, by omega⟩]
  by_cases hpos : w.le16 4 > 0
  swap
  · have hzero : w.le16 4 = 0 := by omega
    rw [if_neg hpos, if_neg (fun hh => hpos hh.1), hzero, Mem.copy_zero]
    refine .pure (hd₁.trans ?_)
    simp [Link.fetch]
  have hsmall : 8 + w.le16 4 ≤ 256 := by
    rw [gEcMaxResponse_eq] at hfit
    omega
  -- the window has not changed since the header was read
  have hwin : (view d₁).window.mem = w := by rw [hd₁]; rfl
  have hdata := hc.receive_data _ indata (w.le16 4) d₁ hsmall (by rwa [hwin])
  rw [hwin, hd₁] at hdata
  rw [if_pos hpos]
  by_cases hsum : w.sum (8 + w.le16 4) ≠ 0
  · rw [if_pos hsum] at hdata
    rw [if_pos ⟨hpos, hsum⟩]
    exact hdata
  · rw [if_neg hsum] at hdata
    rw [if_neg fun hh => hsum hh.2]
    exact hdata

/-- **`ECSendCommand` over a transport that carries the exchange is the exchange.** -/
theorem sendCommand (hc : Carries ec h xfer view) (u r : Mem) (command version : UInt64)
    (outdata : Mem) (outsize : UInt64) (indata : Mem) (insize : UInt64) (d : D) :
    Gives h view (ecSendCommandWith xfer u r command version outdata outsize indata insize) d
      (exchange ec command version outdata outsize indata insize (view d)) := by
  rw [ecSendCommandWith, exchange]
  by_cases hlarge : outsize + 8 > 256
  · rw [if_pos hlarge, if_pos hlarge]
    exact .pure rfl
  rw [if_neg hlarge, if_neg hlarge]
  by_cases hwrap : outsize.toNat > gEcMaxRequest
  · rw [if_pos hwrap, fillRequest_fault u command version outsize outdata hwrap]
    exact Gives.fault rfl (List.prefix_refl _)
  rw [if_neg hwrap]
  have hn : outsize.toNat ≤ gEcMaxRequest := by omega
  obtain ⟨b, hb, hbytes⟩ := fillRequest_eq u command version outsize outdata hn
  rw [hb, pure_bind, handshake]
  apply Gives.bind (hc.wait d)
  rintro _ d₁ ⟨rfl, hd₁⟩
  generalize (view d).await ec readyPolls = s at hd₁ ⊢
  obtain ⟨_ | _, l₁⟩ := s
  · exact .pure hd₁
  simp only [cond_true, ne_eq, not_true_eq_false, if_false, Bool.not_true, Bool.false_eq_true]
  -- the packet goes into the window
  have hsize : outsize.toNat + 8 ≤ 256 := by
    rw [gEcMaxRequest_eq] at hwrap
    omega
  rw [packetLength outsize hn]
  refine Gives.bind (hc.write ⟨b, ecLpcHostPacketSize⟩ _ d₁ hsize hsize) ?_
  intro _ d₂ hd₂
  -- the doorbell
  obtain ⟨d₃, hcmd, hd₃⟩ := hc.command ecCommandProtocol3 d₂
  refine Gives.bind (Prog.Ends.perform hcmd (Q := fun _ d' => d' = d₃) rfl) ?_
  rintro _ d₃ rfl
  have hrung : view d₃ = (l₁.write (requestPacket command version outdata outsize.toNat)
      (outsize.toNat + 8)).command ec ecCommandProtocol3 := by
    rw [hd₃, hd₂, hd₁, Link.write, Link.write, Window.write_congr _ hbytes]
  rw [← hrung]
  apply Gives.bind (hc.wait d₃)
  rintro _ d₄ ⟨rfl, hd₄⟩
  generalize (view d₃).await ec readyPolls = s at hd₄ ⊢
  obtain ⟨_ | _, l₄⟩ := s
  · exact .pure hd₄
  simp only [cond_true, not_true_eq_false, if_false, Bool.not_true, Bool.false_eq_true]
  -- the result register
  obtain ⟨d₅, hres, hd₅⟩ := hc.result d₄
  refine Gives.bind (Prog.Ends.perform hres (Q := fun i d' => i = _ ∧ d' = d₅) ⟨rfl, rfl⟩) ?_
  rintro _ d₅ ⟨rfl, rfl⟩
  simp only at hd₄
  rw [hd₄] at hd₅ ⊢
  by_cases hzero : (l₄.result ec).1 = 0
  · simp only [hzero, not_true_eq_false, if_false, ← hd₅]
    exact hc.receive r indata insize d₅
  · have hneg : ¬(-eecresult - ((l₄.result ec).1.toNat : Int) = 0) := by
      simp only [eecresult]
      omega
    simp only [hzero, hneg, not_false_eq_true, if_true]
    exact .pure hd₅

end Carries

end FrameworkHacks.Transport
