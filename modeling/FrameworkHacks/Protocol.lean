import FrameworkHacks.Library.Memory

/-!
# The host command protocol

Constants and structure layouts of `CrosECLib.h` that the transports, the tools and the simulated EC
share. A structure is its byte layout: field offsets and sizes, with the bytes in a `Mem`.
-/

namespace FrameworkHacks

open Effects

/-- `enum ec_status`. -/
inductive EcStatus
  | success
  | invalidCommand
  | error
  | invalidParam
  | accessDenied
  | invalidResponse
  | invalidVersion
  | invalidChecksum
  | inProgress
  | unavailable
  | timeout
  | overflow
  | invalidHeader
  | requestTruncated
  | responseTooBig
  | busError
  | busy
  | invalidHeaderVersion
  | invalidHeaderCrc
  | invalidDataCrc
  | dupUnavailable
  deriving DecidableEq, Repr

/-- `EC_RES_…`: the constructors are in the order of their codes. -/
def EcStatus.code (s : EcStatus) : Int := s.ctorIdx

/-- `EECRESULT`: offset of the codes that come from the EC itself. -/
def eecresult : Int := 1000

/-! ### The C types -/

/-- A plain `char`, which is signed. -/
def charVal (b : UInt8) : Int := b.toInt8.toInt

/-- Signed addition in `int`; overflow is undefined. -/
def addInt {E : Signature} (a b : Int) : Prog E Int :=
  if -2147483648 ≤ a + b ∧ a + b ≤ 2147483647 then pure (a + b) else .fault

theorem addInt_of_le {E : Signature} {a b : Int} (hlo : -2147483648 ≤ a + b)
    (hhi : a + b ≤ 2147483647) : (addInt a b : Prog E Int) = pure (a + b) := if_pos ⟨hlo, hhi⟩

theorem run_addInt {E : Signature} {a b c : Int} {t : Trace E} (h : Run (addInt a b) t (.done c)) :
    t = [] ∧ c = a + b := by
  unfold addInt at h
  split at h
  · exact h.pure_done
  · cases h

theorem holds_addInt_cases {E : Signature} {H : Halt → Prop} {G P : Event E → Prop} {Q : Int → Prop}
    {a b : Int} (hH : ¬(-2147483648 ≤ a + b ∧ a + b ≤ 2147483647) → H .fault)
    (hQ : a + b ≤ 2147483647 → Q (a + b)) : Prog.Holds H G P Q (addInt a b) := by
  unfold addInt
  split
  · exact hQ (And.right ‹_›)
  · exact hH ‹_›

theorem holds_addInt {E : Signature} {H : Halt → Prop} {G P : Event E → Prop} {Q : Int → Prop}
    {a b : Int} (hH : H .fault) (hQ : a + b ≤ 2147483647 → Q (a + b)) :
    Prog.Holds H G P Q (addInt a b) := holds_addInt_cases (fun _ => hH) hQ

/-- A conversion to `uint32_t`. -/
def toUint32 (a : Int) : Nat := (a % 4294967296).toNat

/-- A conversion of a `UINTN` to `int`. -/
def toInt (n : Nat) : Int :=
  if n % 0x100000000 < 0x80000000 then (n % 0x100000000 : Nat) else (n % 0x100000000 : Nat) - 0x100000000

theorem toInt_of_lt {n : Nat} (h : n < 0x80000000) : toInt n = n := by
  rw [toInt, Nat.mod_eq_of_lt (by omega), if_pos h]

/-- A conversion of a `UINTN` to `INTN`. -/
def toIntn (n : Nat) : Int := if n < 0x8000000000000000 then n else n - 0x10000000000000000

theorem toIntn_of_lt {n : Nat} (h : n < 0x8000000000000000) : toIntn n = n := if_pos h

/-- A conversion of an `INTN` to `UINTN`. -/
def toUintn (n : Int) : Nat := (n % 0x10000000000000000).toNat

theorem toUintn_of_lt {n : Nat} (h : n < 0x10000000000000000) : toUintn n = n := by
  unfold toUintn
  omega

/-- The bytes of a string literal, without its NUL. -/
def ascii (s : String) : List UInt8 := s.toList.map fun c => c.toNat.toUInt8

/-! ### Ports and packets -/

def ecLpcAddrHostData : Nat := 0x200
def ecLpcAddrHostCmd : Nat := 0x204
def ecLpcAddrHostPacket : Nat := 0x800
def ecLpcHostPacketSize : Nat := 0x100

def ecLpcStatusFromHost : UInt8 := 0x02
def ecLpcStatusProcessing : UInt8 := 0x04
def ecLpcStatusBusyMask : UInt8 := ecLpcStatusFromHost ||| ecLpcStatusProcessing

def ecCommandProtocol3 : UInt8 := 0xda
def ecHostRequestVersion : UInt8 := 3
def ecHostResponseVersion : UInt8 := 3

/-- `sizeof(struct ec_host_request)`: struct_version, checksum, command (2), command_version,
reserved, data_len (2). -/
def sizeofEcHostRequest : Nat := 8

/-- `sizeof(struct ec_host_response)`: struct_version, checksum, result (2), data_len (2),
reserved (2). -/
def sizeofEcHostResponse : Nat := 8

/-- `EC_MEMMAP_SIZE`: the ACPI IO buffer is at most 255 bytes. -/
def ecMemmapSize : Nat := 255

/-! ### Commands -/

def ecCmdHello : Nat := 0x0001
def ecCmdGetVersion : Nat := 0x0002
def ecCmdGetBuildInfo : Nat := 0x0004
def ecCmdGetCmdVersions : Nat := 0x0008
def ecCmdFlashInfo : Nat := 0x0010
def ecCmdFlashRead : Nat := 0x0011
def ecCmdFlashWrite : Nat := 0x0012
def ecCmdFlashErase : Nat := 0x0013
def ecCmdConsoleSnapshot : Nat := 0x0097
def ecCmdConsoleRead : Nat := 0x0098
def ecCmdGetPanicInfo : Nat := 0x00D3

/-- `enum ec_console_read_subcmd` -/
def consoleReadNext : UInt8 := 0
def consoleReadRecent : UInt8 := 1

/-- `EC_CMD_FLASH_NOTIFIED`, Framework specific. -/
def ecCmdFlashNotified : Nat := 0x3E01

/-- `G_EC_MAX_REQUEST` -/
def gEcMaxRequest : Nat := ecLpcHostPacketSize - sizeofEcHostRequest

/-- `G_EC_MAX_RESPONSE` -/
def gEcMaxResponse : Nat := ecLpcHostPacketSize - sizeofEcHostResponse

theorem gEcMaxRequest_eq : gEcMaxRequest = 248 := rfl

theorem gEcMaxResponse_eq : gEcMaxResponse = 248 := rfl

end FrameworkHacks
