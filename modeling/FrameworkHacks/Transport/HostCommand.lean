import FrameworkHacks.Transport.Ports

/-!
# Sending a host command

The part of the two hardware libraries that is the same text in both, with the library's own
`ECTransfer` as a parameter: the ready-wait, the checksum, `ECSendCommand`. The two unions on the
stack, `u` and `r`, are objects of 256 bytes whose contents are indeterminate when the call begins.
-/

namespace FrameworkHacks.Transport

open Effects

/-- One round of the loop of `ECWaitForReady`; the state is `(i, delay)`. -/
def waitRound (statusAddr : Nat) (timeoutUsec : Int) (s : Int × Int) : Prog Io (Int ⊕ (Int × Int)) := do
  let (i, delay) := s
  if i < timeoutUsec then
    stall (min delay (timeoutUsec - i)).toNat
    let status ← ioRead8 statusAddr
    if status &&& ecLpcStatusBusyMask = 0 then
      return .inl 0
    -- increase the delay interval after a few rapid checks
    let delay := if i > 20 then min (delay * 2) 10000 else delay
    return .inr (← addInt i delay, delay)
  else
    return .inl (-1)

/-- Wait for the EC to be unbusy. Returns 0 if unbusy, non-zero if timeout. -/
def ecWaitForReady (statusAddr : Nat) (timeoutUsec : Int) : Prog Io Int :=
  Prog.loop (waitRound statusAddr timeoutUsec) (timeoutUsec.toNat + 1) (0, 5)

def ecChecksumBuffer (data : Buf) (size : Nat) : Prog Io UInt8 :=
  Prog.forRange (fun i (sum : UInt8) => do
    let c ← data.load i
    return UInt8.ofInt (sum.toNat + charVal c)) 0 size 0

/-- The request header, in the order the fields are filled in. -/
def requestHeader (u : Mem) (command version outsize : UInt64) : Mem :=
  let u := u.set 0 ecHostRequestVersion
  let u := u.set 1 0
  let u := u.set16 2 command.toUInt16.toNat
  let u := u.set 4 version.toUInt8
  let u := u.set 5 0
  u.set16 6 outsize.toUInt16.toNat

/-- Fills in the request packet: header, payload, checksum. -/
def fillRequest (u : Mem) (command version : UInt64) (outdata : Mem) (outsize : UInt64) :
    Prog Io Buf := do
  let u : Buf := ⟨requestHeader u command version outsize, ecLpcHostPacketSize⟩
  let u ← u.copyIn sizeofEcHostRequest outdata outsize.toNat
  let csum ← ecChecksumBuffer u (outsize + 8).toNat
  u.store 1 (-csum)

/-- Reads the response packet and takes it apart; the result is `res` and `indata`. -/
def receiveResponse (ecTransfer : EcTransfer) (r : Mem) (indata : Mem) (insize : UInt64) :
    Prog Io (Int × Mem) := do
  let r : Buf := ⟨r, ecLpcHostPacketSize⟩
  let r ← ecTransfer .read 0 r 0 8
  let dataLen := r.bytes.le16 4
  if r.bytes 0 ≠ ecHostResponseVersion then
    return (-EcStatus.invalidHeaderVersion.code, indata)
  if r.bytes.le16 6 ≠ 0 then
    return (-EcStatus.invalidHeader.code, indata)
  if dataLen > insize.toNat then
    return (-EcStatus.responseTooBig.code, indata)
  if dataLen > 0 then
    let r ← ecTransfer .read 8 r sizeofEcHostResponse (UInt16.ofNat dataLen)
    if (← ecChecksumBuffer r (sizeofEcHostResponse + dataLen)) ≠ 0 then
      return (-EcStatus.invalidChecksum.code, indata)
    return (dataLen, indata.copy 0 (r.bytes.drop sizeofEcHostResponse) dataLen)
  return (dataLen, indata)

/-- `ECSendCommand` over a library's `ECTransfer`. -/
def ecSendCommandWith (ecTransfer : EcTransfer) (u r : Mem) (command version : UInt64) (outdata : Mem)
    (outsize : UInt64) (indata : Mem) (insize : UInt64) : Prog Io (Int × Mem) := do
  -- `outsize + sizeof(u.rq)` is computed in 64 bits
  if outsize + 8 > 256 then
    return (-EcStatus.requestTruncated.code, indata)
  let u ← fillRequest u command version outdata outsize
  if (← ecWaitForReady ecLpcAddrHostCmd 1000000) ≠ 0 then
    return (-EcStatus.timeout.code, indata)
  let _ ← ecTransfer .write 0 u 0 (outsize + 8).toUInt16
  -- start the command
  ioWrite8 ecLpcAddrHostCmd ecCommandProtocol3
  if (← ecWaitForReady ecLpcAddrHostCmd 1000000) ≠ 0 then
    return (-EcStatus.timeout.code, indata)
  let i ← ioRead8 ecLpcAddrHostData
  if i ≠ 0 then
    return (-eecresult - i.toNat, indata)
  receiveResponse ecTransfer r indata insize

end FrameworkHacks.Transport
