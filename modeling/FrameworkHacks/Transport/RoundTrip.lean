import Mathlib.Data.Nat.Find
import FrameworkHacks.Transport.Libraries

/-!
# A host command round trip

The EC that the header documents: it waits for the doorbell, takes the packet window for a
`struct ec_host_request`, and answers with a `struct ec_host_response`. A packet the host sends is
parsed as what the host meant, and the answer arrives, over either transport.
-/

namespace FrameworkHacks.Transport

open Effects

/-- A request as the EC understands it. -/
structure Request where
  command : Nat
  version : Nat
  payload : List UInt8
  deriving DecidableEq, Repr

/-- The request in a packet window, if the window holds a `struct ec_host_request`. -/
def parseRequest (w : Mem) : Option Request :=
  let dataLen := w.le16 6
  if w 0 = ecHostRequestVersion ∧ w 5 = 0 ∧ dataLen ≤ gEcMaxRequest ∧ w.sum (8 + dataLen) = 0 then
    some ⟨w.le16 2, (w 4).toNat, (w.drop 8).toList dataLen⟩
  else none

/-- An answer: the result register, and a packet window that holds a `struct ec_host_response` with
the payload. -/
structure Response where
  result : UInt8
  payload : List UInt8
  packet : Window
  fits : payload.length ≤ gEcMaxResponse
  structVersion : packet.mem 0 = ecHostResponseVersion
  dataLen : packet.mem.le16 4 = payload.length
  reserved : packet.mem.le16 6 = 0
  data : ∀ i < payload.length, packet.mem (8 + i) = Mem.ofList payload i
  checksum : packet.mem.sum (8 + payload.length) = 0

/-- What the documented EC remembers: how often it was polled, the result register, and what it made
of each packet it was sent. -/
structure Reference where
  polls : Nat
  resultReg : UInt8
  received : List (Option Request)

/-- The documented EC. Its busy bits follow `schedule`; what it answers is up to `respond`. -/
def referenceEc (schedule : Nat → UInt8) (respond : Request → Response) : Ec Reference where
  status s := (schedule s.1.polls, { s.1 with polls := s.1.polls + 1 }, s.2)
  result s := (s.1.resultReg, s.1, s.2)
  command v s :=
    if v = ecCommandProtocol3 then
      match parseRequest s.2.mem with
      | some q => ({ s.1 with
          resultReg := (respond q).result
          received := s.1.received ++ [some q] }, (respond q).packet)
      | none => ({ s.1 with
          resultReg := UInt8.ofInt EcStatus.invalidHeader.code
          received := s.1.received ++ [none] }, s.2)
    else s

/-- Both ready-waits of a command see the busy bits clear within their polls. -/
def SeesReady (schedule : Nat → UInt8) (polls : Nat) : Prop :=
  ∃ k₁ < readyPolls, schedule (polls + k₁) &&& ecLpcStatusBusyMask = 0 ∧
    (∀ j < k₁, schedule (polls + j) &&& ecLpcStatusBusyMask ≠ 0) ∧
    ∃ k₂ < readyPolls, schedule (polls + k₁ + 1 + k₂) &&& ecLpcStatusBusyMask = 0

/-- What the caller should be given for a response. -/
def Delivered (r : Response) (insize : Nat) (indata : Mem) (res : Int × Mem) : Prop :=
  if r.result ≠ 0 then res = (-eecresult - r.result.toNat, indata)
  else if insize < r.payload.length then res = (-EcStatus.responseTooBig.code, indata)
  else res = ((r.payload.length : Int), indata.copy 0 (Mem.ofList r.payload) r.payload.length)

/-! ### The packet -/

section Packet

variable {command version : UInt64} {payload : Mem} {n : Nat}

theorem requestPacket_of_ne {i : Nat} (hi : i ≠ 1) :
    requestPacket command version payload n i = rawPacket command version payload n i :=
  Mem.set_ne _ _ hi

theorem requestPacket_dataLen (hn : n < 65536) :
    (requestPacket command version payload n).le16 6 = n := by
  have := Mem.le16_of_bytes (m := requestPacket command version payload n) (i := 6) (v := n) rfl rfl
  rw [this, Nat.mod_eq_of_lt hn]

theorem requestPacket_command (hcommand : command.toNat < 65536) :
    (requestPacket command version payload n).le16 2 = command.toNat := by
  have := Mem.le16_of_bytes (m := requestPacket command version payload n) (i := 2)
    (v := command.toUInt16.toNat) rfl rfl
  rw [this, uint16_toNat]
  omega

theorem parseRequest_requestPacket (w : Window) (hn : n ≤ gEcMaxRequest)
    (hcommand : command.toNat < 65536) (hversion : version.toNat < 256) :
    parseRequest (w.write (requestPacket command version payload n) (n + 8)).mem =
      some ⟨command.toNat, version.toNat, payload.toList n⟩ := by
  have hn' : n + 8 ≤ 256 := by
    rw [gEcMaxRequest_eq] at hn
    omega
  have hmem : ∀ i < n + 8, (w.write (requestPacket command version payload n) (n + 8)).mem i =
      requestPacket command version payload n i := fun i hi => by
    rw [Window.mem_lt _ (by omega), Window.write, if_pos hi]
  have hlen : (w.write (requestPacket command version payload n) (n + 8)).mem.le16 6 = n := by
    rw [Mem.le16_congr (hmem 6 (by omega)) (hmem 7 (by omega)), requestPacket_dataLen (by omega)]
  have hcmd : (w.write (requestPacket command version payload n) (n + 8)).mem.le16 2 =
      command.toNat := by
    rw [Mem.le16_congr (hmem 2 (by omega)) (hmem 3 (by omega)), requestPacket_command hcommand]
  have hsum : (w.write (requestPacket command version payload n) (n + 8)).mem.sum (8 + n) = 0 := by
    rw [Nat.add_comm 8 n, Mem.sum_congr hmem, requestPacket_sum]
  have hver : (version.toUInt8).toNat = version.toNat := by
    rw [UInt64.toNat_toUInt8]
    omega
  unfold parseRequest
  simp only [hlen, hcmd, hsum, hmem 0 (by omega), hmem 4 (by omega), hmem 5 (by omega)]
  rw [if_pos ⟨rfl, rfl, hn, trivial⟩]
  have hdata : (Mem.drop (w.write (requestPacket command version payload n) (n + 8)).mem 8).toList n =
      payload.toList n := by
    apply List.map_congr_left
    intro i hi
    have hi := List.mem_range.1 hi
    rw [Mem.drop_apply, hmem (8 + i) (by omega), requestPacket_of_ne (by omega), Nat.add_comm]
    rfl
  rw [hdata]
  congr 2

end Packet

/-! ### The documented EC on the link -/

section Reference

variable {schedule : Nat → UInt8} (respond : Request → Response)

theorem await_reference {n k : Nat} (hk : k < n) (l : Link Reference)
    (hclear : schedule (l.ec.polls + k) &&& ecLpcStatusBusyMask = 0)
    (hbusy : ∀ j < k, schedule (l.ec.polls + j) &&& ecLpcStatusBusyMask ≠ 0) :
    l.await (referenceEc schedule respond) n =
      (true, { l with ec := { l.ec with polls := l.ec.polls + k + 1 } }) := by
  induction k generalizing n l with
  | zero =>
    obtain ⟨m, rfl⟩ : ∃ m, n = m + 1 := ⟨n - 1, by omega⟩
    have hstatus : (l.status (referenceEc schedule respond)).1 &&& ecLpcStatusBusyMask = 0 := hclear
    rw [Link.await_ready m hstatus]
    rfl
  | succ k ih =>
    obtain ⟨m, rfl⟩ : ∃ m, n = m + 1 := ⟨n - 1, by omega⟩
    have hstatus : (l.status (referenceEc schedule respond)).1 &&& ecLpcStatusBusyMask ≠ 0 :=
      hbusy 0 (by omega)
    rw [Link.await_busy m hstatus, ih (by omega)]
    · simp only [Link.status, referenceEc, Link.setEc]
      rw [show l.ec.polls + 1 + k + 1 = l.ec.polls + (k + 1) + 1 by omega]
    · simp only [Link.status, referenceEc, Link.setEc]
      rwa [show l.ec.polls + 1 + k = l.ec.polls + (k + 1) by omega]
    · intro j hj
      simp only [Link.status, referenceEc, Link.setEc]
      rw [show l.ec.polls + 1 + j = l.ec.polls + (j + 1) by omega]
      exact hbusy (j + 1) (by omega)

theorem await_reference_exists {n : Nat} (l : Link Reference)
    (h : ∃ k < n, schedule (l.ec.polls + k) &&& ecLpcStatusBusyMask = 0) :
    ∃ polls, l.await (referenceEc schedule respond) n =
      (true, { l with ec := { l.ec with polls := polls } }) := by
  have hleast := Nat.find_spec h
  refine ⟨_, await_reference respond hleast.1 l hleast.2 fun j hj hclear => ?_⟩
  exact Nat.find_min h hj ⟨by omega, hclear⟩

theorem decodeResponse_delivered (r : Response) (hresult : r.result = 0) (indata : Mem)
    (insize : Nat) :
    ∃ res, decodeResponse r.packet.mem indata insize = some res ∧ Delivered r insize indata res := by
  have hfits := r.fits
  unfold decodeResponse Delivered
  simp only [r.structVersion, r.reserved, r.dataLen, r.checksum, hresult, ne_eq, not_true_eq_false,
    if_false, and_false]
  by_cases hbig : insize < r.payload.length
  · rw [if_pos hbig]
    exact ⟨_, rfl, by rw [if_pos hbig]⟩
  · rw [if_neg hbig, if_neg (by omega)]
    refine ⟨_, rfl, ?_⟩
    rw [if_neg hbig, Mem.copy_congr (s := r.packet.mem.drop 8) r.data]

theorem exchange_reference (command version : UInt64) (payload : Mem) (outsize : UInt64)
    (indata : Mem) (insize : UInt64) (l : Link Reference) (hcommand : command.toNat < 65536)
    (hversion : version.toNat < 256) (hout : outsize.toNat ≤ gEcMaxRequest)
    (hready : SeesReady schedule l.ec.polls) :
    let q : Request := ⟨command.toNat, version.toNat, payload.toList outsize.toNat⟩
    let e := exchange (referenceEc schedule respond) command version payload outsize indata insize l
    e.2.ec.received = l.ec.received ++ [some q] ∧
      ∃ res, e.1 = some res ∧ Delivered (respond q) insize.toNat indata res := by
  intro q e
  obtain ⟨k₁, hk₁, hclear₁, hbusy₁, k₂, hk₂, hclear₂⟩ := hready
  have hsmall : ¬(outsize + 8 > 256) := by
    rw [tooLarge_iff]
    omega
  have hwait₁ := await_reference respond hk₁ l hclear₁ hbusy₁
  set l₁ : Link Reference := { l with ec := { l.ec with polls := l.ec.polls + k₁ + 1 } } with hl₁
  -- the doorbell: the EC parses the packet and lays out its response
  have hparse : parseRequest (l₁.window.write (requestPacket command version payload outsize.toNat)
      (outsize.toNat + 8)).mem = some q := parseRequest_requestPacket l₁.window hout hcommand hversion
  have hring : (l₁.write (requestPacket command version payload outsize.toNat)
      (outsize.toNat + 8)).command (referenceEc schedule respond) ecCommandProtocol3 =
      ⟨{ l₁.ec with resultReg := (respond q).result, received := l.ec.received ++ [some q] },
        (respond q).packet, l.reads⟩ := by
    simp only [Link.command, Link.setEc, Link.write, referenceEc, if_true, hparse]
    rfl
  obtain ⟨polls, hwait₂⟩ := await_reference_exists respond (n := readyPolls)
    ⟨{ l₁.ec with resultReg := (respond q).result, received := l.ec.received ++ [some q] },
      (respond q).packet, l.reads⟩ ⟨k₂, hk₂, hclear₂⟩
  have he : e = exchange (referenceEc schedule respond) command version payload outsize indata insize l := rfl
  rw [exchange, if_neg hsmall, if_neg (by omega), handshake, hwait₁] at he
  simp only [hring, hwait₂, Bool.not_true, Bool.false_eq_true, if_false] at he
  simp only [Link.result, referenceEc, Link.setEc] at he
  by_cases hresult : (respond q).result = 0
  · simp only [hresult, ne_eq, not_true_eq_false, if_false] at he
    obtain ⟨res, hres, hdel⟩ := decodeResponse_delivered (respond q) hresult indata insize.toNat
    rw [he]
    refine ⟨?_, res, hres, hdel⟩
    simp only [responseReads]
    split <;> rfl
  · have hneg : ¬(-eecresult - ((respond q).result.toNat : Int) = 0) := by
      simp only [eecresult]
      omega
    simp only [ne_eq, hresult, hneg, not_false_eq_true, if_true] at he
    rw [he]
    refine ⟨rfl, _, rfl, ?_⟩
    rw [Delivered, if_pos hresult]

end Reference

/-! ### Every answer can be given -/

def rawResponse (result : UInt8) (payload : List UInt8) : Mem
  | 0 => ecHostResponseVersion
  | 1 => 0
  | 2 => result
  | 3 => 0
  | 4 => Mem.byteOf payload.length 0
  | 5 => Mem.byteOf payload.length 1
  | 6 => 0
  | 7 => 0
  | i + 8 => Mem.ofList payload i

/-- The raw response with its checksum. -/
def responseWindow (result : UInt8) (payload : List UInt8) : Window := fun i =>
  (rawResponse result payload).set 1 (-(rawResponse result payload).sum (8 + payload.length)) i

section

variable (result : UInt8) {payload : List UInt8} (fits : payload.length ≤ 248)
include fits

theorem responseWindow_dataLen : (responseWindow result payload).mem.le16 4 = payload.length := by
  have hlt : payload.length < 65536 := by omega
  exact (Mem.le16_of_bytes (v := payload.length) rfl rfl).trans (Nat.mod_eq_of_lt hlt)

theorem responseWindow_data {i : Nat} (hi : i < payload.length) :
    (responseWindow result payload).mem (8 + i) = Mem.ofList payload i := by
  have hraw : rawResponse result payload (8 + i) = Mem.ofList payload i := by
    rw [Nat.add_comm]
    rfl
  rw [Window.mem_lt _ (by omega), responseWindow, Mem.set_ne _ _ (by simp only; omega), hraw]

theorem responseWindow_checksum : (responseWindow result payload).mem.sum (8 + payload.length) = 0 := by
  have hraw : ∀ i < 8 + payload.length, (responseWindow result payload).mem i =
      (rawResponse result payload).set 1 (-(rawResponse result payload).sum (8 + payload.length)) i :=
    fun i hi => Window.mem_lt _ (by omega)
  rw [Mem.sum_congr hraw, Mem.sum_set _ _ (by omega : 1 < 8 + payload.length)]
  simp only [rawResponse]
  grind

end

/-- The documented response with a given result and payload. -/
def Response.of (result : UInt8) (payload : List UInt8) (fits : payload.length ≤ gEcMaxResponse) :
    Response where
  result := result
  payload := payload
  packet := responseWindow result payload
  fits := fits
  structVersion := rfl
  dataLen := responseWindow_dataLen result fits
  reserved := rfl
  data _ hi := responseWindow_data result fits hi
  checksum := responseWindow_checksum result fits

/-! ### Both libraries -/

/-- **A host command makes the round trip over both transports**: the EC receives exactly the
caller's request, and the caller is given the EC's answer. -/
theorem sendCommand_roundTrip (schedule : Nat → UInt8) (respond : Request → Response)
    (u r outdata indata : Mem) (command version outsize insize : UInt64)
    (hcommand : command.toNat < 65536) (hversion : version.toNat < 256)
    (hout : outsize.toNat ≤ gEcMaxRequest) (d : Emi Reference) (b : Bus Reference)
    (hd : SeesReady schedule d.ec.polls) (hb : SeesReady schedule b.ec.polls) :
    let q : Request := ⟨command.toNat, version.toNat, outdata.toList outsize.toNat⟩
    (∃ res d', (Mec.ecSendCommandMecLpc u r command version outdata outsize indata insize).exec
        (emi (referenceEc schedule respond)) d = (.ok res, d') ∧
      d'.ec.received = d.ec.received ++ [some q] ∧
      Delivered (respond q) insize.toNat indata res) ∧
    ∃ res b', (Azalea.ecSendCommand u r command version outdata outsize indata insize).exec
        (npcx (referenceEc schedule respond)) b = (.ok res, b') ∧
      b'.ec.received = b.ec.received ++ [some q] ∧
      Delivered (respond q) insize.toNat indata res := by
  intro q
  set ec := referenceEc schedule respond
  constructor
  · have hgives := (Mec.carries ec).sendCommand u r command version outdata outsize indata insize d
    obtain ⟨hreceived, res, hres, hdel⟩ := exchange_reference respond command version outdata outsize
      indata insize (Mec.link d) hcommand hversion
      hout hd
    obtain ⟨d', hexec, hlink⟩ := hgives.some hres
    exact ⟨_, d', hexec, (congrArg (fun l => l.ec.received) hlink).trans hreceived, hdel⟩
  · have hgives := (Azalea.carries ec).sendCommand u r command version outdata outsize indata insize b
    obtain ⟨hreceived, res, hres, hdel⟩ := exchange_reference respond command version outdata outsize
      indata insize (Azalea.link b) hcommand
      hversion hout hb
    obtain ⟨b', hexec, hlink⟩ := hgives.some hres
    exact ⟨_, b', hexec, (congrArg (fun l => l.ec.received) hlink).trans hreceived, hdel⟩

/-- Three bytes for an EC that is never busy and always answers `2a`. -/
theorem sendCommand_roundTrip_idle :
    let q : Request := ⟨1, 0, [7, 8, 9]⟩
    let respond := fun _ : Request => Response.of 0 [0x2a] (by decide)
    let ec := referenceEc (fun _ => 0) respond
    (∃ res d', (Mec.ecSendCommandMecLpc (fun _ => 0) (fun _ => 0) 1 0 (Mem.ofList [7, 8, 9]) 3
        (fun _ => 0) 255).exec (emi ec) ⟨⟨⟨0, 0, []⟩, fun _ => 0, []⟩, 0⟩ = (.ok res, d') ∧
      d'.ec.received = [some q] ∧ Delivered (respond q) 255 (fun _ => 0) res) ∧
    ∃ res b', (Azalea.ecSendCommand (fun _ => 0) (fun _ => 0) 1 0 (Mem.ofList [7, 8, 9]) 3
        (fun _ => 0) 255).exec (npcx ec) ⟨⟨0, 0, []⟩, fun _ => 0, []⟩ = (.ok res, b') ∧
      b'.ec.received = [some q] ∧ Delivered (respond q) 255 (fun _ => 0) res := by
  have hready : SeesReady (fun _ => 0) 0 :=
    ⟨0, by rw [readyPolls_eq]; decide, by decide, by omega, 0, by rw [readyPolls_eq]; decide, by decide⟩
  exact sendCommand_roundTrip (fun _ => 0) (fun _ => Response.of 0 [0x2a] (by decide)) (fun _ => 0)
    (fun _ => 0) (Mem.ofList [7, 8, 9]) (fun _ => 0) 1 0 3 255 (by decide) (by decide) (by decide)
    ⟨⟨⟨0, 0, []⟩, fun _ => 0, []⟩, 0⟩ ⟨⟨0, 0, []⟩, fun _ => 0, []⟩ hready hready

end FrameworkHacks.Transport
