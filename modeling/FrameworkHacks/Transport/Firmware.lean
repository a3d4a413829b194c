import FrameworkHacks.Library.Session
import FrameworkHacks.Transport.CrosEC
import FrameworkHacks.Transport.RoundTrip

/-!
# Sessions with an EC that takes its time

The documented EC with a firmware of its own: it takes a request at the doorbell, is busy for as long as its
schedule says, and lays out the response when it becomes ready. A call that gives up leaves the EC at work, and
what the EC lays out then is for nobody.

Whatever the schedule, a call is an `Exchanged` of `Library.Session` (`exchange_firmware`). So over either
library, in any session, the EC does what it has taken exactly once and in order, and no caller is given the
response to another call; if the EC is prompt, every call is answered (`sessions_exactlyOnce`).
-/

namespace FrameworkHacks.Transport

open Effects

variable {σ D : Type}

abbrev Firmware (σ : Type) := Server σ Request Response

/-- What the EC remembers: the state of its firmware, how often it was polled, the result register, and the
request it is at work on. -/
structure Controller (σ : Type) where
  firmware : σ
  polls : Nat
  resultReg : UInt8
  pending : Option Request

/-- The firmware, and what it is at work on. -/
def Controller.view (c : Controller σ) : Pending σ Request := (c.firmware, c.pending)

/-- The EC is done with what it was at work on. -/
def Controller.finish (serve : Firmware σ) (c : Controller σ) (w : Window) : Controller σ × Window :=
  match c.pending with
  | none => (c, w)
  | some q =>
    let (a, firmware) := serve c.firmware q
    ({ c with firmware := firmware, resultReg := a.result, pending := none }, a.packet)

def firmwareEc (serve : Firmware σ) (schedule : Nat → UInt8) : Ec (Controller σ) where
  status s :=
    let v := schedule s.1.polls
    let c := { s.1 with polls := s.1.polls + 1 }
    if v &&& ecLpcStatusBusyMask = 0 then (v, c.finish serve s.2) else (v, c, s.2)
  result s := (s.1.resultReg, s)
  command v s :=
    if v = ecCommandProtocol3 then
      match parseRequest s.2.mem with
      | some q => ({ s.1 with pending := some q }, s.2)
      | none => ({ s.1 with resultReg := UInt8.ofInt EcStatus.invalidHeader.code }, s.2)
    else s

/-! ### One call -/

/-- What a caller is given: the response to its request, or a timeout. -/
def Received (r : Option Response) (insize : Nat) (indata : Mem) (res : Int × Mem) : Prop :=
  match r with
  | none => res = (-EcStatus.timeout.code, indata)
  | some a => Delivered a insize indata res

/-- The link after some polls. -/
def Link.polled (l : Link (Controller σ)) (polls : Nat) : Link (Controller σ) :=
  { l with ec := { l.ec with polls := polls } }

def Link.finish (serve : Firmware σ) (l : Link (Controller σ)) : Link (Controller σ) :=
  l.setEc (l.ec.finish serve l.window)

theorem Link.finish_view (serve : Firmware σ) (l : Link (Controller σ)) :
    (l.finish serve).ec.view = (settle serve l.ec.view, none) := by
  obtain ⟨⟨firmware, polls, resultReg, pending⟩, w, reads⟩ := l
  cases pending <;> rfl

section Exchange

variable (serve : Firmware σ) (schedule : Nat → UInt8)

/-- A wait gives up with the EC at work, which was busy all the time, or finds it done. -/
theorem await_firmware (n : Nat) (l : Link (Controller σ)) :
    (∃ polls, l.await (firmwareEc serve schedule) n = (false, l.polled polls) ∧
      ∀ k < n, schedule (l.ec.polls + k) &&& ecLpcStatusBusyMask ≠ 0) ∨
      ∃ polls, l.await (firmwareEc serve schedule) n = (true, (l.polled polls).finish serve) := by
  induction n generalizing l with
  | zero => exact .inl ⟨l.ec.polls, rfl, fun k hk => absurd hk (Nat.not_lt_zero k)⟩
  | succ n ih =>
    by_cases hclear : schedule l.ec.polls &&& ecLpcStatusBusyMask = 0
    · have hstatus : l.status (firmwareEc serve schedule) =
          (schedule l.ec.polls, (l.polled (l.ec.polls + 1)).finish serve) := by
        simp only [Link.status, firmwareEc, if_pos hclear]
        rfl
      refine .inr ⟨l.ec.polls + 1, ?_⟩
      rw [Link.await_ready n (by rw [hstatus]; exact hclear), hstatus]
    · have hstatus : l.status (firmwareEc serve schedule) = (schedule l.ec.polls, l.polled (l.ec.polls + 1)) := by
        simp only [Link.status, firmwareEc, if_neg hclear]
        rfl
      rw [Link.await_busy n (by rw [hstatus]; exact hclear), hstatus]
      rcases ih (l.polled (l.ec.polls + 1)) with ⟨polls, hwait, hbusy⟩ | hdone
      · refine .inl ⟨polls, hwait, fun k hk => ?_⟩
        cases k with
        | zero => exact hclear
        | succ k =>
          rw [show l.ec.polls + (k + 1) = l.ec.polls + 1 + k by omega]
          exact hbusy k (by omega)
      · exact .inr hdone

/-- The EC is never busy for as long as the host waits. -/
def Prompt (schedule : Nat → UInt8) : Prop :=
  ∀ polls, ∃ k < readyPolls, schedule (polls + k) &&& ecLpcStatusBusyMask = 0

theorem prompt_idle : Prompt fun _ => 0 := by
  intro polls
  rw [readyPolls_eq]
  exact ⟨0, by decide, show (0 : UInt8) &&& ecLpcStatusBusyMask = 0 by decide⟩

/-- **A call is an exchange with the firmware**, whatever the schedule; it is answered by an EC that is prompt. -/
theorem exchange_firmware (command version : UInt64) (payload : Mem) (outsize : UInt64) (indata : Mem)
    (insize : UInt64) (l : Link (Controller σ)) (hcommand : command.toNat < 65536)
    (hversion : version.toNat < 256) (hout : outsize.toNat ≤ gEcMaxRequest) :
    let q : Request := ⟨command.toNat, version.toNat, payload.toList outsize.toNat⟩
    let e := exchange (firmwareEc serve schedule) command version payload outsize indata insize l
    ∃ r taken res, Exchanged serve q l.ec.view r taken e.2.ec.view ∧ e.1 = some res ∧
      Received r insize.toNat indata res ∧ (Prompt schedule → r.isSome = true) := by
  intro q e
  -- a prompt EC is not busy throughout a wait
  have hlate {l : Link (Controller σ)} (hbusy : ∀ k < readyPolls, schedule (l.ec.polls + k) &&&
      ecLpcStatusBusyMask ≠ 0) : ¬Prompt schedule := fun hprompt =>
    let ⟨k, hk, hclear⟩ := hprompt l.ec.polls
    hbusy k hk hclear
  have hsmall : ¬(outsize + 8 > 256) := by
    rw [tooLarge_iff]
    omega
  have he : e = exchange (firmwareEc serve schedule) command version payload outsize indata insize l := rfl
  have htimeout : ¬(-EcStatus.timeout.code = 0) := by decide
  rw [exchange, if_neg hsmall, if_neg (by omega), handshake] at he
  obtain ⟨polls₁, hwait₁, hbusy⟩ | ⟨polls₁, hwait₁⟩ := await_firmware serve schedule readyPolls l
  · -- the EC is still at work on something else
    simp only [hwait₁, Bool.not_false, if_true, ne_eq, htimeout, not_false_eq_true] at he
    rw [he]
    exact ⟨none, false, _, .unsent _, rfl, rfl, fun hprompt => (hlate hbusy hprompt).elim⟩
  simp only [hwait₁, Bool.not_true, Bool.false_eq_true, if_false] at he
  set l₁ := (l.polled polls₁).finish serve with hl₁
  have hview₁ : l₁.ec.view = (settle serve l.ec.view, none) := Link.finish_view serve _
  -- the doorbell: the EC takes the request
  have hparse : parseRequest (l₁.window.write (requestPacket command version payload outsize.toNat)
      (outsize.toNat + 8)).mem = some q := parseRequest_requestPacket l₁.window hout hcommand hversion
  set l₂ := (l₁.write (requestPacket command version payload outsize.toNat) (outsize.toNat + 8)).command
    (firmwareEc serve schedule) ecCommandProtocol3 with hl₂
  have hview₂ : l₂.ec.view = (settle serve l.ec.view, some q) := by
    simp only [hl₂, Link.command, Link.setEc, Link.write, firmwareEc, if_true, hparse, Controller.view]
    exact congrArg (fun v => (v.1, some q)) hview₁
  obtain ⟨polls₂, hwait₂, hbusy⟩ | ⟨polls₂, hwait₂⟩ := await_firmware serve schedule readyPolls l₂
  · simp only [hwait₂, Bool.not_false, if_true, ne_eq, htimeout, not_false_eq_true] at he
    rw [he]
    refine ⟨none, true, _, ?_, rfl, rfl, fun hprompt => (hlate hbusy hprompt).elim⟩
    have hafter : (l₂.polled polls₂).ec.view = (settle serve l.ec.view, some q) := hview₂
    rw [hafter]
    exact .unanswered _
  -- the EC has done it
  set l₃ := (l₂.polled polls₂).finish serve with hl₃
  have hview₃ : l₃.ec.view = ((serve (settle serve l.ec.view) q).2, none) := by
    rw [hl₃, Link.finish_view]
    exact congrArg (fun v => (settle serve v, none)) hview₂
  have hdone : l₃.ec.resultReg = (serve (settle serve l.ec.view) q).1.result ∧
      l₃.window = (serve (settle serve l.ec.view) q).1.packet := by
    have hfirmware : l₂.ec.firmware = settle serve l.ec.view := congrArg Prod.fst hview₂
    have hpending : l₂.ec.pending = some q := congrArg Prod.snd hview₂
    simp only [hl₃, Link.finish, Link.setEc, Link.polled, Controller.finish, hpending, hfirmware, and_self]
  have hresult : l₃.result (firmwareEc serve schedule) = (l₃.ec.resultReg, l₃) := rfl
  simp only [hwait₂, Bool.not_true, Bool.false_eq_true, if_false, hresult] at he
  rw [hdone.1] at he
  by_cases hzero : (serve (settle serve l.ec.view) q).1.result = 0
  · simp only [hzero, ne_eq, not_true_eq_false, if_false, hdone.2] at he
    obtain ⟨res, hres, hdel⟩ := decodeResponse_delivered _ hzero indata insize.toNat
    have hec : e.2.ec = l₃.ec := by
      rw [he]
      simp only [responseReads]
      split <;> rfl
    refine ⟨some _, true, res, ?_, by rw [he]; exact hres, hdel, fun _ => rfl⟩
    rw [hec, hview₃]
    exact .answered _
  · have hneg : ¬(-eecresult - ((serve (settle serve l.ec.view) q).1.result.toNat : Int) = 0) := by
      simp only [eecresult]
      omega
    simp only [ne_eq, hzero, hneg, not_false_eq_true, if_true] at he
    rw [he]
    refine ⟨some (serve (settle serve l.ec.view) q).1, true, _, ?_, rfl, ?_, fun _ => rfl⟩
    · rw [hview₃]
      exact .answered _
    · rw [Received, Delivered, if_pos hzero]

theorem exchange_prompt {schedule : Nat → UInt8} (hprompt : Prompt schedule) (command version : UInt64)
    (payload : Mem) (outsize : UInt64) (indata : Mem) (insize : UInt64) (l : Link (Controller σ))
    (hcommand : command.toNat < 65536) (hversion : version.toNat < 256) (hout : outsize.toNat ≤ gEcMaxRequest) :
    let q : Request := ⟨command.toNat, version.toNat, payload.toList outsize.toNat⟩
    let e := exchange (firmwareEc serve schedule) command version payload outsize indata insize l
    ∃ res, e.1 = some res ∧ Delivered (serve (settle serve l.ec.view) q).1 insize.toNat indata res ∧
      settle serve e.2.ec.view = (serve (settle serve l.ec.view) q).2 := by
  intro q e
  obtain ⟨r, taken, res, hstep, hres, hgot, hsome⟩ := exchange_firmware serve schedule command version payload
    outsize indata insize l hcommand hversion hout
  obtain ⟨a, rfl⟩ := Option.isSome_iff_exists.1 (hsome hprompt)
  have hsettled := hstep.settled
  generalize (exchange (firmwareEc serve schedule) command version payload outsize indata insize l).2.ec.view = v
    at hstep hsettled
  cases hstep
  exact ⟨res, hres, hgot, hsettled⟩

end Exchange

/-! ### Clients of the protocol -/

/-- The request that a call makes. -/
def CrosEcOp.request : CrosEcOp → Option Request
  | .sendCommand command version outdata outsize _ _ =>
    some ⟨command.toNat, version.toNat, outdata.toList outsize.toNat⟩
  | .readMemory .. => none

/-- A command of 16 bits, a version of 8, and a payload that fits the packet; and reads that are the same on both
libraries. -/
def WellFormed : CrosEcOp → Prop
  | .sendCommand command version _ outsize _ _ =>
    command.toNat < 65536 ∧ version.toNat < 256 ∧ outsize.toNat ≤ gEcMaxRequest
  | .readMemory offset buffer length => Plain (.readMemory offset buffer length)

theorem WellFormed.plain {op : CrosEcOp} (h : WellFormed op) : Plain op := by
  cases op with
  | sendCommand => trivial
  | readMemory => exact h

/-- What the answer to a call tells of the response. -/
def Got : Event CrosEc → Option Response → Prop
  | ⟨.sendCommand _ _ _ _ indata insize, res⟩, r => Received r insize.toNat indata res
  | ⟨.readMemory .., _⟩, _ => False

theorem crosEc_ans (op : CrosEcOp) : Nonempty op.Ans := by
  cases op with
  | sendCommand => exact ⟨(0, fun _ => 0)⟩
  | readMemory offset buffer length => exact ⟨(0, buffer)⟩

section Clients

variable (serve : Firmware σ) (schedule : Nat → UInt8)

theorem machine_connects :
    Connects serve (machine (firmwareEc serve schedule)) (fun m => m.ec.view) CrosEcOp.request
      (fun e r => Got e r ∧ (Prompt schedule → r.isSome = true)) WellFormed where
  silent op m hop hrequest := by
    cases op with
    | sendCommand => cases hrequest
    | readMemory offset buffer length =>
      obtain ⟨-, -, hsize, -⟩ := hop
      exact ⟨_, m, if_pos hsize, rfl⟩
  asks op m q hop hrequest := by
    cases op with
    | readMemory => cases hrequest
    | sendCommand command version outdata outsize indata insize =>
      cases hrequest
      obtain ⟨hcommand, hversion, hout⟩ := hop
      obtain ⟨r, taken, res, hstep, hres, hgot, hsome⟩ := exchange_firmware serve schedule command version outdata
        outsize indata insize m.link hcommand hversion hout
      generalize he : exchange (firmwareEc serve schedule) command version outdata outsize indata insize m.link = e
        at hstep hres
      refine ⟨res, { m with ec := e.2.ec, window := e.2.window }, r, taken, ?_, hstep, hgot, hsome⟩
      simp only [machine, he, hres]

theorem Serves.exchanged {h : Handler Io D} {xfer : EcTransfer} {link : D → Link (Controller σ)} {map : D → Mem}
    (hs : Serves (firmwareEc serve schedule) h xfer link map) (u r : Mem) (command version : UInt64) (outdata : Mem)
    (outsize : UInt64) (indata : Mem) (insize : UInt64) (d : D) (hcommand : command.toNat < 65536)
    (hversion : version.toNat < 256) (hout : outsize.toNat ≤ gEcMaxRequest) :
    Prog.Ends h (ecSendCommandWith xfer u r command version outdata outsize indata insize) d fun res d' =>
      ∃ a taken, Exchanged serve ⟨command.toNat, version.toNat, outdata.toList outsize.toNat⟩ (link d).ec.view a taken
        (link d').ec.view ∧ Received a insize.toNat indata res := by
  obtain ⟨a, taken, res, hstep, hres, hgot, -⟩ := exchange_firmware serve schedule command version outdata outsize
    indata insize (link d) hcommand hversion hout
  obtain ⟨d', hexec, hlink⟩ :=
    (hs.carries.sendCommand u r command version outdata outsize indata insize d).some hres
  rw [← hlink] at hstep
  exact ⟨res, d', hexec, a, taken, hstep, hgot⟩

/-- The client finishes on this device, and whatever came of its calls, the firmware has done what it has taken
exactly once and each response went to the call that it answers. A prompt EC has answered them all. -/
def Serviced {D : Type} (h : Handler Io D) (link : D → Link (Controller σ)) (impl : Impl CrosEc Io)
    {α : Type} (p : Prog CrosEc α) (d : D) : Prop :=
  Prog.Ends h (p.interpret impl) d fun a d' => ∃ t log qs, Run p t (.done a) ∧
    Logged CrosEcOp.request Got t log ∧ ExactlyOnce serve (link d).ec.view log qs (link d').ec.view ∧
    (Prompt schedule → ∀ e ∈ log, e.2.isSome = true)

theorem Serves.serviced {h : Handler Io D} {xfer : EcTransfer} {link : D → Link (Controller σ)} {map : D → Mem}
    (hs : Serves (firmwareEc serve schedule) h xfer link map) (u r : Mem) {α : Type} {p : Prog CrosEc α}
    (hp : Prog.Holds (fun _ => False) (fun _ => True) (fun e => WellFormed e.op) (fun _ => True) p) (d : D) :
    Serviced serve schedule h link (protocolWith xfer u r) p d := by
  -- the machine that the device shows
  have hshow : Shows link map (Machine.mk (link d).ec (link d).window (map d)) d := ⟨rfl, rfl, fun _ _ => rfl⟩
  obtain ⟨a, m', t, log, qs, hexec, hrun, hlogged, hsession⟩ :=
    (machine_connects serve schedule).session hp crosEc_ans (Machine.mk (link d).ec (link d).window (map d))
  have hmatch := (hs.realizes u r).exec crosEc_ans
    ((hp.mono (fun _ h => h.plain) fun _ h => h).weaken fun _ h => h.elim) hshow
  rw [hexec] at hmatch
  refine Prog.Ends.mono hmatch fun b d' hd => ?_
  obtain ⟨rfl, hshow'⟩ := hd
  rw [hshow'.ec]
  obtain ⟨hlogged, hanswered⟩ := hlogged.got (A := fun r => Prompt schedule → r.isSome = true) fun _ _ h => h
  exact ⟨t, log, qs, hrun, hlogged, hsession.exactlyOnce, fun hprompt e he => hanswered e he hprompt⟩

/-- **No command is done twice, and no caller is given the response to another call**, over either library,
whatever the client does and however long the EC takes; a prompt EC answers every call. -/
theorem sessions_exactlyOnce (u r : Mem) {α : Type} {p : Prog CrosEc α}
    (hp : Prog.Holds (fun _ => False) (fun _ => True) (fun e => WellFormed e.op) (fun _ => True) p)
    (d : Emi (Controller σ)) (b : Bus (Controller σ)) :
    Serviced serve schedule (emi (firmwareEc serve schedule)) Mec.link (Mec.mCrosECProtocol u r) p d ∧
      Serviced serve schedule (npcx (firmwareEc serve schedule)) Azalea.link (Azalea.mCrosECProtocol u r) p b :=
  ⟨(Mec.serves _).serviced serve schedule u r hp d, (Azalea.serves _).serviced serve schedule u r hp b⟩

end Clients

/-- Two calls to an EC that counts its requests and is busy for the whole of the first one: the second is answered
with the number of the requests before it. -/
theorem sessions_exactlyOnce_late :
    let serve : Firmware Nat := fun n _ => (Response.of 0 [UInt8.ofNat n] (show 1 ≤ 248 by decide), n + 1)
    let schedule := fun n => if n < readyPolls then (4 : UInt8) else 0
    let call := fun command : UInt64 =>
      Prog.perform (E := CrosEc) (.sendCommand command 0 (fun _ => 0) 0 (fun _ => 0) 1)
    let p := call 1 >>= fun _ => call 2
    Serviced serve schedule (emi (firmwareEc serve schedule)) Mec.link (Mec.mCrosECProtocol (fun _ => 0) fun _ => 0) p
        ⟨⟨⟨0, 0, 0, none⟩, fun _ => 0, []⟩, 0⟩ ∧
      Serviced serve schedule (npcx (firmwareEc serve schedule)) Azalea.link
        (Azalea.mCrosECProtocol (fun _ => 0) fun _ => 0) p
        ⟨⟨0, 0, 0, none⟩, fun _ => 0, []⟩ := by
  intro serve schedule call p
  have hwell : ∀ command : UInt64, command.toNat < 65536 →
      WellFormed (.sendCommand command 0 (fun _ => 0) 0 (fun _ => 0) 1) :=
    fun command hcommand => ⟨hcommand, by decide, by decide⟩
  have hp : Prog.Holds (fun _ => False) (fun _ => True) (fun e => WellFormed e.op) (fun _ => True) p :=
    fun _ => ⟨hwell 1 (by decide), fun _ _ => ⟨hwell 2 (by decide), fun _ => trivial⟩⟩
  exact sessions_exactlyOnce serve schedule (fun _ => 0) (fun _ => 0) hp _ _

end FrameworkHacks.Transport
