import FrameworkHacks.Transport.Libraries

/-!
# Any answer at all

What the two libraries do whatever the EC puts into the packet window and the registers. They do the
same (`transports_agree`). A response that claims more data than the window holds takes them out of
the response union, if the caller's buffer is larger than that (`sendCommand_inBounds_iff`).
-/

namespace FrameworkHacks.Transport

open Effects

variable {σ D : Type}

/-! ### The exchange does not depend on the reads so far -/

namespace Link

/-- The same link after some other reads. -/
def after (rs : List Nat) (l : Link σ) : Link σ := { l with reads := rs ++ l.reads }

theorem await_after (ec : Ec σ) (rs : List Nat) (n : Nat) (l : Link σ) :
    (l.after rs).await ec n = ((l.await ec n).1, (l.await ec n).2.after rs) := by
  induction n generalizing l with
  | zero => rfl
  | succ n ih =>
    by_cases hready : (l.status ec).1 &&& ecLpcStatusBusyMask = 0
    · rw [await_ready n hready, await_ready n (l := l.after rs) hready]
      rfl
    · rw [await_busy n hready, await_busy n (l := l.after rs) hready]
      exact ih (l.status ec).2

theorem fetch_after (rs : List Nat) (l : Link σ) (a n : Nat) :
    (l.after rs).fetch a n = (l.fetch a n).after rs := by
  simp [after, fetch]

end Link

theorem handshake_after (ec : Ec σ) (command version : UInt64) (payload : Mem) (n : Nat)
    (rs : List Nat) (l : Link σ) :
    handshake ec command version payload n (l.after rs) =
      ((handshake ec command version payload n l).1,
        (handshake ec command version payload n l).2.after rs) := by
  rw [handshake, handshake, Link.await_after]
  generalize l.await ec readyPolls = s
  obtain ⟨_ | _, l₁⟩ := s
  · rfl
  simp only [Bool.not_true, Bool.false_eq_true, if_false]
  have hcommand : ((l₁.after rs).write (requestPacket command version payload n) (n + 8)).command ec
      ecCommandProtocol3 = ((l₁.write (requestPacket command version payload n) (n + 8)).command ec
        ecCommandProtocol3).after rs := rfl
  rw [hcommand, Link.await_after]
  generalize Link.await ec readyPolls _ = s
  obtain ⟨_ | _, l₂⟩ := s
  · rfl
  have hresult : (l₂.after rs).result ec = ((l₂.result ec).1, (l₂.result ec).2.after rs) := rfl
  simp only [Bool.not_true, Bool.false_eq_true, if_false, hresult]
  split <;> rfl

theorem responseReads_after (w : Mem) (insize : Nat) (rs : List Nat) (l : Link σ) :
    responseReads w insize (l.after rs) = (responseReads w insize l).after rs := by
  simp only [responseReads, Link.fetch_after]
  split <;> rfl

theorem exchange_after (ec : Ec σ) (command version : UInt64) (payload : Mem) (outsize : UInt64)
    (indata : Mem) (insize : UInt64) (rs : List Nat) (l : Link σ) :
    exchange ec command version payload outsize indata insize (l.after rs) =
      ((exchange ec command version payload outsize indata insize l).1,
        (exchange ec command version payload outsize indata insize l).2.after rs) := by
  rw [exchange, exchange, handshake_after]
  generalize handshake ec command version payload outsize.toNat l = s
  obtain ⟨rv, l₁⟩ := s
  split
  · rfl
  split
  · rfl
  simp only [responseReads_after]
  split
  · rfl
  · rfl

/-! ### What becomes of the caller's buffer -/

/-- A negative value leaves the buffer alone, and a count changes at most that many bytes of it. -/
def KeepsRest (indata : Mem) (res : Int × Mem) : Prop :=
  (res.1 < 0 → res.2 = indata) ∧ ∀ i : Nat, res.1 ≤ i → res.2 i = indata i

theorem KeepsRest.refl (indata : Mem) (rv : Int) : KeepsRest indata (rv, indata) :=
  ⟨fun _ => rfl, fun _ _ => rfl⟩

theorem decodeResponse_keepsRest {w indata : Mem} {insize : Nat} {res : Int × Mem}
    (h : decodeResponse w indata insize = some res) : KeepsRest indata res := by
  simp only [decodeResponse] at h
  split_ifs at h <;> cases h
  · exact .refl _ _
  · exact .refl _ _
  · exact .refl _ _
  · exact .refl _ _
  · refine ⟨fun hneg => by simp only at hneg; omega, fun i hi => ?_⟩
    simp only at hi ⊢
    exact Mem.copy_out _ _ (by omega)

theorem exchange_keepsRest {ec : Ec σ} {command version : UInt64} {payload : Mem} {outsize : UInt64}
    {indata : Mem} {insize : UInt64} {l : Link σ} {res : Int × Mem}
    (h : (exchange ec command version payload outsize indata insize l).1 = some res) :
    KeepsRest indata res := by
  unfold exchange at h
  split_ifs at h
  · cases h; exact .refl _ _
  generalize handshake ec command version payload outsize.toNat l = s at h
  obtain ⟨rv, l₁⟩ := s
  simp only at h
  split_ifs at h
  · cases h; exact .refl _ _
  · exact decodeResponse_keepsRest h

/-! ### Where the response union is overrun -/

/-- The packet window as the host finds it when it goes on to read the response. -/
def responsePacket (ec : Ec σ) (command version : UInt64) (payload : Mem) (outsize : UInt64)
    (l : Link σ) : Option Window :=
  if outsize.toNat > gEcMaxRequest then none
  else
    let (rv, l) := handshake ec command version payload outsize.toNat l
    if rv = 0 then some l.window else none

theorem exchange_of_packet {ec : Ec σ} {command version : UInt64} {payload : Mem} {outsize : UInt64}
    {indata : Mem} {insize : UInt64} {l : Link σ} {w : Window}
    (hw : w ∈ responsePacket ec command version payload outsize l) :
    exchange ec command version payload outsize indata insize l =
      (decodeResponse w.mem indata insize.toNat, responseReads w.mem insize.toNat
        (handshake ec command version payload outsize.toNat l).2) := by
  unfold responsePacket at hw
  by_cases hbig : outsize.toNat > gEcMaxRequest
  · simp [hbig] at hw
  have hsmall : ¬(outsize + 8 > 256) := by
    rw [tooLarge_iff]
    omega
  rw [exchange, if_neg hsmall, if_neg hbig]
  rw [if_neg hbig] at hw
  generalize handshake ec command version payload outsize.toNat l = s at hw ⊢
  obtain ⟨rv, l₁⟩ := s
  simp only [Option.mem_def, Option.ite_none_right_eq_some, Option.some.injEq] at hw
  obtain ⟨rfl, rfl⟩ := hw
  simp only [ne_eq, not_true_eq_false, if_false]

/-- A response header the host accepts although its data does not fit the response union. -/
def Oversized (w : Mem) (insize : Nat) : Prop :=
  w 0 = ecHostResponseVersion ∧ w.le16 6 = 0 ∧ gEcMaxResponse < w.le16 4 ∧ w.le16 4 ≤ insize

theorem decodeResponse_eq_none {w indata : Mem} {insize : Nat} :
    decodeResponse w indata insize = none ↔ Oversized w insize := by
  simp only [decodeResponse, Oversized]
  split_ifs with h0 h6 hbig hfit hsum
  · simp [h0]
  · simp [h6]
  · exact iff_of_false not_false fun h => by omega
  · exact iff_of_true rfl ⟨not_not.1 h0, not_not.1 h6, hfit, by omega⟩
  · exact iff_of_false not_false fun h => by omega
  · exact iff_of_false not_false fun h => by omega

/-- A payload that passes the size check is small, unless the sum wrapped. -/
theorem exchange_none_iff {ec : Ec σ} {command version : UInt64} {payload : Mem} {outsize : UInt64}
    {indata : Mem} {insize : UInt64} {l : Link σ} (hout : outsize.toNat < 2 ^ 64 - 8) :
    (exchange ec command version payload outsize indata insize l).1 = none ↔
      ∃ w ∈ responsePacket ec command version payload outsize l, Oversized w.mem insize.toNat := by
  have hlarge : outsize + 8 > 256 ↔ outsize.toNat > gEcMaxRequest := by
    rw [tooLarge_iff]
    omega
  rw [exchange, responsePacket]
  by_cases hbig : outsize.toNat > gEcMaxRequest
  · rw [if_pos (hlarge.2 hbig), if_pos hbig]
    simp
  rw [if_neg (mt hlarge.1 hbig), if_neg hbig, if_neg hbig]
  generalize handshake ec command version payload outsize.toNat l = s
  obtain ⟨rv, l₁⟩ := s
  by_cases hrv : rv = 0
  · simp [hrv, decodeResponse_eq_none]
  · simp [hrv]

/-! ### The two libraries agree -/

/-- The same EC behind both, and bytes 0..255 of its memory are ports 0x800..0x8FF. -/
def Related (d : Emi σ) (b : Bus σ) : Prop :=
  d.ec = b.ec ∧ d.window 0 = b.window ecLpcAddrHostPacket

/-- **The two libraries agree whatever the EC does**: the same value, the same buffer, related
states afterwards. -/
theorem transports_agree (ec : Ec σ) (u r u' r' outdata indata : Mem)
    (command version outsize insize : UInt64) (hout : outsize.toNat < 2 ^ 32)
    (hin : insize.toNat ≤ 248) (d : Emi σ) (b : Bus σ) (hrel : Related d b) :
    ∃ rv indata' d' b',
      (Mec.ecSendCommandMecLpc u r command version outdata outsize indata insize).exec (emi ec) d =
        (.ok (rv, indata'), d') ∧
      (Azalea.ecSendCommand u' r' command version outdata outsize indata insize).exec (npcx ec) b =
        (.ok (rv, indata'), b') ∧
      KeepsRest indata (rv, indata') ∧ Related d' b' := by
  -- both links are one link, seen after different reads
  set l : Link σ := ⟨d.ec, d.window 0, []⟩ with hl
  have hd : Mec.link d = l.after d.reads := by simp [Mec.link, hl, Link.after]
  have hb : Azalea.link b = l.after (Azalea.link b).reads := by
    simp [Azalea.link, hl, Link.after, hrel.1, hrel.2]
  have hmec := (Mec.carries ec).sendCommand u r command version outdata outsize indata insize d
  have hazalea := (Azalea.carries ec).sendCommand u' r' command version outdata outsize indata insize b
  rw [hd, exchange_after] at hmec
  rw [hb, exchange_after] at hazalea
  set e := exchange ec command version outdata outsize indata insize l with he
  obtain ⟨res, hres⟩ : ∃ res, e.1 = some res := by
    rw [← Option.ne_none_iff_exists']
    intro hnone
    obtain ⟨w, -, -, -, hlong, hfit⟩ := (exchange_none_iff (by omega)).1 hnone
    rw [gEcMaxResponse_eq] at hlong
    omega
  obtain ⟨d', hexec, hlink⟩ := hmec.some hres
  obtain ⟨b', hexec', hlink'⟩ := hazalea.some hres
  refine ⟨res.1, res.2, d', b', hexec, hexec', exchange_keepsRest hres, ?_, ?_⟩
  · exact (congrArg Link.ec hlink).trans (congrArg Link.ec hlink').symm
  · exact (congrArg Link.window hlink).trans (congrArg Link.window hlink').symm

/-- An EC that is never busy and leaves the packet it is sent in the window. -/
theorem transports_agree_echo :
    ∃ rv indata' d' b',
      (Mec.ecSendCommandMecLpc (fun _ => 0) (fun _ => 0) 1 0 (Mem.ofList [7, 8]) 2 (fun _ => 0) 4).exec
        (emi idleEc) ⟨⟨(), fun _ => 0, []⟩, 0⟩ = (.ok (rv, indata'), d') ∧
      (Azalea.ecSendCommand (fun _ => 0) (fun _ => 0) 1 0 (Mem.ofList [7, 8]) 2 (fun _ => 0) 4).exec
        (npcx idleEc) ⟨(), fun _ => 0, []⟩ = (.ok (rv, indata'), b') ∧
      KeepsRest (fun _ => 0) (rv, indata') ∧ Related d' b' :=
  transports_agree _ _ _ _ _ _ _ 1 0 2 4 (by decide) (by decide) _ _ ⟨rfl, rfl⟩

/-! ### What the response may do to the host -/

/-- The run keeps to the response union and to the packet window. An access outside the union
faults, and only such an access does once a response byte has been read; window offsets the host
reads are below 256. -/
def InBounds {α : Type} (h : Handler Io D) (view : D → Link σ) (p : Prog Io α) (d : D) : Prop :=
  let x := p.exec h d
  (x.1 = .error .fault → (view x.2).reads = (view d).reads) ∧
    ∀ a ∈ (view x.2).reads, a ∈ (view d).reads ∨ a < 256

/-- The command up to its response reads nothing from the window, and its value is 0 or an error. -/
theorem handshake_cases (ec : Ec σ) (command version : UInt64) (payload : Mem) (n : Nat)
    (l : Link σ) : (handshake ec command version payload n l).2.reads = l.reads ∧
      ((handshake ec command version payload n l).1 = -EcStatus.timeout.code ∨
        (handshake ec command version payload n l).1 = 0 ∨
        ∃ i : UInt8, (handshake ec command version payload n l).1 = -eecresult - i.toNat) := by
  unfold handshake
  have h₁ := Link.await_reads ec readyPolls l
  generalize l.await ec readyPolls = s at h₁ ⊢
  obtain ⟨_ | _, l₁⟩ := s
  · exact ⟨h₁, .inl rfl⟩
  simp only [Bool.not_true, Bool.false_eq_true, if_false]
  have h₂ := Link.await_reads ec readyPolls
    ((l₁.write (requestPacket command version payload n) (n + 8)).command ec ecCommandProtocol3)
  generalize Link.await ec readyPolls _ = s at h₂ ⊢
  obtain ⟨_ | _, l₂⟩ := s
  · exact ⟨h₂.trans h₁, .inl rfl⟩
  simp only [Bool.not_true, Bool.false_eq_true, if_false]
  split
  · exact ⟨h₂.trans h₁, .inr (.inr ⟨_, rfl⟩)⟩
  · exact ⟨h₂.trans h₁, .inr (.inl rfl)⟩

theorem responseReads_lt {w : Mem} {insize : Nat} {l : Link σ} {a : Nat}
    (ha : a ∈ (responseReads w insize l).reads) : a ∈ l.reads ∨ a < 256 := by
  by_cases hdata : w 0 = ecHostResponseVersion ∧ w.le16 6 = 0 ∧ w.le16 4 ≤ insize ∧
      w.le16 4 ≤ gEcMaxResponse
  · have hfit := hdata.2.2.2
    rw [gEcMaxResponse_eq] at hfit
    rw [responseReads_data l hdata] at ha
    simp only [Link.fetch, List.mem_append, List.mem_range'_1] at ha
    rcases ha with (ha | ha) | ha
    · exact .inl ha
    · exact .inr (by omega)
    · exact .inr (by omega)
  · rw [responseReads_header l hdata] at ha
    simp only [Link.fetch, List.mem_append, List.mem_range'_1] at ha
    rcases ha with ha | ha
    · exact .inl ha
    · exact .inr (by omega)

theorem exchange_reads {ec : Ec σ} {command version : UInt64} {payload : Mem} {outsize : UInt64}
    {indata : Mem} {insize : UInt64} {l : Link σ} {a : Nat}
    (ha : a ∈ (exchange ec command version payload outsize indata insize l).2.reads) :
    a ∈ l.reads ∨ a < 256 := by
  unfold exchange at ha
  split_ifs at ha
  · exact .inl ha
  · exact .inl ha
  have hreads := (handshake_cases ec command version payload outsize.toNat l).1
  generalize handshake ec command version payload outsize.toNat l = s at ha hreads
  obtain ⟨rv, l₁⟩ := s
  simp only at ha hreads
  split_ifs at ha
  · exact .inl (hreads ▸ ha)
  · exact hreads ▸ responseReads_lt ha

theorem exchange_reads_of_oversized {ec : Ec σ} {command version : UInt64} {payload : Mem}
    {outsize : UInt64} {indata : Mem} {insize : UInt64} {l : Link σ} {w : Window}
    (hw : w ∈ responsePacket ec command version payload outsize l) (hlong : Oversized w.mem insize.toNat) :
    (exchange ec command version payload outsize indata insize l).2.reads =
      l.reads ++ List.range' 0 8 := by
  rw [exchange_of_packet hw]
  simp only
  rw [responseReads_header _ fun hh => by have := hlong.2.2.1; omega]
  simp only [Link.fetch, (handshake_cases ec command version payload outsize.toNat l).1]

/-- The size check that wraps lets through a payload that overruns the request union at once. -/
theorem sendCommand_wrapped (xfer : EcTransfer) (u r outdata indata : Mem)
    (command version outsize insize : UInt64) (hwrap : 2 ^ 64 - 8 ≤ outsize.toNat) :
    ecSendCommandWith xfer u r command version outdata outsize indata insize = .fault := by
  have hsmall : ¬(outsize + 8 > 256) := by
    rw [tooLarge_iff]
    omega
  rw [ecSendCommandWith, if_neg hsmall, fillRequest_fault u command version outsize outdata (by
    simp only [gEcMaxRequest_eq]
    omega)]
  rfl

namespace Carries

variable {ec : Ec σ} {h : Handler Io D} {xfer : EcTransfer} {view : D → Link σ}

theorem exec_wrapped (u r outdata indata : Mem) (command version outsize insize : UInt64) (d : D)
    (hwrap : 2 ^ 64 - 8 ≤ outsize.toNat) :
    (ecSendCommandWith xfer u r command version outdata outsize indata insize).exec h d =
      (.error .fault, d) := by
  rw [sendCommand_wrapped xfer u r outdata indata command version outsize insize hwrap]
  rfl

theorem inBounds_iff (hc : Carries ec h xfer view) (u r outdata indata : Mem)
    (command version outsize insize : UInt64) (d : D) :
    InBounds h view (ecSendCommandWith xfer u r command version outdata outsize indata insize) d ↔
      ∀ w ∈ responsePacket ec command version outdata outsize (view d), ¬ Oversized w.mem insize.toNat := by
  by_cases hwrap : 2 ^ 64 - 8 ≤ outsize.toNat
  · rw [InBounds, exec_wrapped u r outdata indata command version outsize insize d hwrap]
    have hnone : responsePacket ec command version outdata outsize (view d) = none := by
      rw [responsePacket, if_pos]
      simp only [gEcMaxRequest_eq]
      omega
    simp only [hnone, Option.not_mem_none, false_implies, implies_true, iff_true, true_and]
    exact fun a ha => .inl ha
  have hgives := hc.sendCommand u r command version outdata outsize indata insize d
  by_cases hsome : (exchange ec command version outdata outsize indata insize (view d)).1 = none
  · obtain ⟨d', hexec, hreads⟩ := hgives.none hsome
    obtain ⟨w, hw, hlong⟩ := (exchange_none_iff (by omega)).1 hsome
    refine iff_of_false (fun hin => ?_) (fun hall => hall w hw hlong)
    rw [InBounds, hexec] at hin
    rw [exchange_reads_of_oversized hw hlong, hin.1 rfl] at hreads
    have hlen := hreads.length_le
    rw [List.length_append, List.length_range'] at hlen
    omega
  · obtain ⟨res, hres⟩ := Option.ne_none_iff_exists'.1 hsome
    obtain ⟨d', hexec, hview⟩ := hgives.some hres
    refine iff_of_true ?_ fun w hw hlong => hsome ((exchange_none_iff (by omega)).2 ⟨w, hw, hlong⟩)
    rw [InBounds, hexec, hview]
    exact ⟨fun h => (by cases h), fun a ha => exchange_reads ha⟩

end Carries

/-- **The response stays inside the union and the window exactly if the EC does not claim more data
than fits, in a packet the caller's `insize` lets through.** -/
theorem sendCommand_inBounds_iff (ec : Ec σ) (u r outdata indata : Mem)
    (command version outsize insize : UInt64) (d : Emi σ) (b : Bus σ) :
    (InBounds (emi ec) Mec.link
        (Mec.ecSendCommandMecLpc u r command version outdata outsize indata insize) d ↔
      ∀ w ∈ responsePacket ec command version outdata outsize (Mec.link d),
        ¬ Oversized w.mem insize.toNat) ∧
    (InBounds (npcx ec) Azalea.link
        (Azalea.ecSendCommand u r command version outdata outsize indata insize) b ↔
      ∀ w ∈ responsePacket ec command version outdata outsize (Azalea.link b),
        ¬ Oversized w.mem insize.toNat) :=
  ⟨(Mec.carries ec).inBounds_iff u r outdata indata command version outsize insize d,
    (Azalea.carries ec).inBounds_iff u r outdata indata command version outsize insize b⟩

/-- An EC that is never busy and answers every command with result 0 and the same packet. -/
def promptEc (packet : Window) : Ec Unit where
  status s := (0, s)
  result s := (0, s)
  command _ _ := ((), packet)

theorem responsePacket_promptEc (packet : Window) (command version : UInt64) (payload : Mem)
    {outsize : UInt64} (hout : outsize.toNat ≤ gEcMaxRequest) (l : Link Unit) :
    packet ∈ responsePacket (promptEc packet) command version payload outsize l := by
  have hwait : ∀ l : Link Unit, l.await (promptEc packet) readyPolls = (true, l) := fun l => by
    have hidle : (l.status (promptEc packet)).1 &&& ecLpcStatusBusyMask = 0 := by
      show (0 : UInt8) &&& ecLpcStatusBusyMask = 0
      decide
    rw [readyPolls_eq, Link.await_ready 113 hidle]
    rfl
  rw [responsePacket, if_neg (by omega), handshake, hwait]
  simp only [Bool.not_true, Bool.false_eq_true, if_false, hwait]
  rfl

/-- A response header that claims 249 bytes of data. -/
def longPacket : Window := fun i => if i = 0 then ecHostResponseVersion else if i = 4 then 249 else 0

/-- It overruns the response union when the caller passes `insize` 255. -/
theorem sendCommand_overruns :
    ¬ InBounds (emi (promptEc longPacket)) Mec.link (Mec.ecSendCommandMecLpc (fun _ => 0) (fun _ => 0) 0xD3 0
        (fun _ => 0) 0 (fun _ => 0) 255) ⟨⟨(), fun _ => 0, []⟩, 0⟩ ∧
      ¬ InBounds (npcx (promptEc longPacket)) Azalea.link (Azalea.ecSendCommand (fun _ => 0) (fun _ => 0) 0xD3 0
        (fun _ => 0) 0 (fun _ => 0) 255) ⟨(), fun _ => 0, []⟩ := by
  have hpacket : ∀ l : Link Unit, longPacket ∈ responsePacket (promptEc longPacket) 0xD3 0 (fun _ => 0) 0 l :=
    responsePacket_promptEc longPacket 0xD3 0 (fun _ => 0) (by decide)
  have hlong : Oversized longPacket.mem (255 : UInt64).toNat := ⟨rfl, rfl, by decide, by decide⟩
  constructor
  · rw [Mec.ecSendCommandMecLpc, (Mec.carries (promptEc longPacket)).inBounds_iff]
    exact fun h => h _ (hpacket _) hlong
  · rw [Azalea.ecSendCommand, (Azalea.carries (promptEc longPacket)).inBounds_iff]
    exact fun h => h _ (hpacket _) hlong

end FrameworkHacks.Transport
