import FrameworkHacks.Transport.Device
import FrameworkHacks.Transport.HostCommand

/-!
# The exchange, without ports

What a host command does in terms of the packet window alone: a packet is put into the window, the
doorbell is rung, the window is taken apart again. `Link` is the state this needs, the EC, the
window and the host's reads so far, as offsets into the window. `exchange` is a function; it is
`none` where the host's code runs past its response union. `Transport.Carries` connects a hardware
library to it.
-/

namespace FrameworkHacks.Transport

open Effects

variable {σ : Type}

structure Link (σ : Type) where
  ec : σ
  window : Window
  reads : List Nat

namespace Link

def setEc (l : Link σ) (s : σ × Window) : Link σ := { l with ec := s.1, window := s.2 }

def status (ec : Ec σ) (l : Link σ) : UInt8 × Link σ :=
  let s := ec.status (l.ec, l.window)
  (s.1, l.setEc s.2)

def result (ec : Ec σ) (l : Link σ) : UInt8 × Link σ :=
  let s := ec.result (l.ec, l.window)
  (s.1, l.setEc s.2)

def command (ec : Ec σ) (v : UInt8) (l : Link σ) : Link σ := l.setEc (ec.command v (l.ec, l.window))

def fetch (l : Link σ) (a n : Nat) : Link σ := { l with reads := l.reads ++ List.range' a n }

def write (l : Link σ) (src : Mem) (n : Nat) : Link σ := { l with window := l.window.write src n }

/-- At most `n` polls of the status register; the first one with the busy bits clear ends it. -/
def await (ec : Ec σ) : Nat → Link σ → Bool × Link σ
  | 0, l => (false, l)
  | n + 1, l =>
    let s := l.status ec
    if s.1 &&& ecLpcStatusBusyMask = 0 then (true, s.2) else await ec n s.2

theorem await_ready {ec : Ec σ} {l : Link σ} (n : Nat)
    (h : (l.status ec).1 &&& ecLpcStatusBusyMask = 0) :
    l.await ec (n + 1) = (true, (l.status ec).2) := by
  rw [await, if_pos h]

theorem await_busy {ec : Ec σ} {l : Link σ} (n : Nat)
    (h : (l.status ec).1 &&& ecLpcStatusBusyMask ≠ 0) :
    l.await ec (n + 1) = (l.status ec).2.await ec n := by
  rw [await, if_neg h]

@[simp] theorem status_reads (ec : Ec σ) (l : Link σ) : (l.status ec).2.reads = l.reads := rfl

@[simp] theorem result_reads (ec : Ec σ) (l : Link σ) : (l.result ec).2.reads = l.reads := rfl

@[simp] theorem command_reads (ec : Ec σ) (v : UInt8) (l : Link σ) :
    (l.command ec v).reads = l.reads := rfl

@[simp] theorem write_reads (l : Link σ) (src : Mem) (n : Nat) : (l.write src n).reads = l.reads := rfl

@[simp] theorem await_reads (ec : Ec σ) (n : Nat) (l : Link σ) : (l.await ec n).2.reads = l.reads := by
  induction n generalizing l with
  | zero => rfl
  | succ n ih =>
    rw [await]
    split
    · rfl
    · rw [ih, status_reads]

end Link

/-- How often a wait of `timeoutUsec` polls at most, from round `(i, delay)` on. -/
def pollsFrom (timeoutUsec : Int) : Nat → Int → Int → Nat
  | 0, _, _ => 0
  | fuel + 1, i, delay =>
    if i < timeoutUsec then
      let delay := if i > 20 then min (delay * 2) 10000 else delay
      pollsFrom timeoutUsec fuel (i + delay) delay + 1
    else 0

/-- The polls of one ready-wait of `ECSendCommand`. -/
@[irreducible] def readyPolls : Nat := pollsFrom 1000000 1000001 0 5

theorem readyPolls_eq : readyPolls = 114 := by
  unfold readyPolls
  decide +kernel

/-- The packet `ECSendCommand` builds from a payload of `n` bytes, its checksum still zero. -/
def rawPacket (command version : UInt64) (payload : Mem) (n : Nat) : Mem
  | 0 => ecHostRequestVersion
  | 1 => 0
  | 2 => Mem.byteOf command.toUInt16.toNat 0
  | 3 => Mem.byteOf command.toUInt16.toNat 1
  | 4 => version.toUInt8
  | 5 => 0
  | 6 => Mem.byteOf n 0
  | 7 => Mem.byteOf n 1
  | i + 8 => payload i

def requestPacket (command version : UInt64) (payload : Mem) (n : Nat) : Mem :=
  (rawPacket command version payload n).set 1 (-(rawPacket command version payload n).sum (n + 8))

/-- The value and the buffer the host makes of a response packet; `none` if the packet claims more
data than the response union holds and the caller lets it. -/
def decodeResponse (w : Mem) (indata : Mem) (insize : Nat) : Option (Int × Mem) :=
  let dataLen := w.le16 4
  if w 0 ≠ ecHostResponseVersion then some (-EcStatus.invalidHeaderVersion.code, indata)
  else if w.le16 6 ≠ 0 then some (-EcStatus.invalidHeader.code, indata)
  else if dataLen > insize then some (-EcStatus.responseTooBig.code, indata)
  else if dataLen > gEcMaxResponse then none
  else if dataLen > 0 ∧ w.sum (8 + dataLen) ≠ 0 then some (-EcStatus.invalidChecksum.code, indata)
  else some (dataLen, indata.copy 0 (w.drop 8) dataLen)

/-- The host's reads of a response packet: the header, and the data once the header is accepted and
the data fits. -/
def responseReads (w : Mem) (insize : Nat) (l : Link σ) : Link σ :=
  let l := l.fetch 0 8
  if w 0 = ecHostResponseVersion ∧ w.le16 6 = 0 ∧ w.le16 4 ≤ insize ∧ w.le16 4 ≤ gEcMaxResponse then
    l.fetch 8 (w.le16 4)
  else l

theorem responseReads_data {w : Mem} {insize : Nat} (l : Link σ)
    (h : w 0 = ecHostResponseVersion ∧ w.le16 6 = 0 ∧ w.le16 4 ≤ insize ∧ w.le16 4 ≤ gEcMaxResponse) :
    responseReads w insize l = (l.fetch 0 8).fetch 8 (w.le16 4) := if_pos h

theorem responseReads_header {w : Mem} {insize : Nat} (l : Link σ)
    (h : ¬(w 0 = ecHostResponseVersion ∧ w.le16 6 = 0 ∧ w.le16 4 ≤ insize ∧
      w.le16 4 ≤ gEcMaxResponse)) : responseReads w insize l = l.fetch 0 8 := if_neg h

/-- The command up to its response: 0 if there is one to read, else the value the host returns. -/
def handshake (ec : Ec σ) (command version : UInt64) (payload : Mem) (n : Nat) (l : Link σ) :
    Int × Link σ :=
  let (ready, l) := l.await ec readyPolls
  if !ready then (-EcStatus.timeout.code, l)
  else
    let l := (l.write (requestPacket command version payload n) (n + 8)).command ec ecCommandProtocol3
    let (ready, l) := l.await ec readyPolls
    if !ready then (-EcStatus.timeout.code, l)
    else
      let (i, l) := l.result ec
      if i ≠ 0 then (-eecresult - i.toNat, l) else (0, l)

/-- A whole host command. The first size check is made in 64 bits; a payload it lets through although
it does not fit overruns the request union. -/
def exchange (ec : Ec σ) (command version : UInt64) (payload : Mem) (outsize : UInt64) (indata : Mem)
    (insize : UInt64) (l : Link σ) : Option (Int × Mem) × Link σ :=
  if outsize + 8 > 256 then (some (-EcStatus.requestTruncated.code, indata), l)
  else if outsize.toNat > gEcMaxRequest then (none, l)
  else
    let (rv, l) := handshake ec command version payload outsize.toNat l
    if rv ≠ 0 then (some (rv, indata), l)
    else
      let w := l.window.mem
      (decodeResponse w indata insize.toNat, responseReads w insize.toNat l)

end FrameworkHacks.Transport
