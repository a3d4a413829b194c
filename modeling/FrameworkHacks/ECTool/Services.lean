import FrameworkHacks.Protocol

/-!
# What the tool calls

The operations `ectool` is built from: the two functions of the EC protocol, the shell's file
functions, pool memory, the keyboard. Every answer is possible; `Library.Run` ranges over them all.
Printing is left out, since nothing depends on it.

The `int` a caller makes of `SendCommand`'s result is `Reply.rv`. The bytes the EC stored are
`Reply.data`; a reply may be shorter than the buffer, which then keeps what it held.
-/

namespace FrameworkHacks.ECTool

open Effects

/-- `EFI_STATUS` -/
abbrev EfiStatus := UInt64

/-- `EFI_ERROR` -/
def efiError (status : EfiStatus) : Bool := 0x8000000000000000 ≤ status

def efiSuccess : EfiStatus := 0
def efiInvalidParameter : EfiStatus := 0x8000000000000002
def efiUnsupported : EfiStatus := 0x8000000000000003
def efiNotReady : EfiStatus := 0x8000000000000006
def efiDeviceError : EfiStatus := 0x8000000000000007
def efiAborted : EfiStatus := 0x8000000000000015
def efiEndOfFile : EfiStatus := 0x800000000000001F

/-- The arguments of `SendCommand`: `outsize` is the length of `outdata`. -/
structure HostCommand where
  command : Nat
  version : Nat
  outdata : List UInt8
  insize : Nat
  deriving DecidableEq, Repr

structure Reply where
  rv : Int
  data : List UInt8

/-- The blocks of pool memory the commands own. -/
inductive Block
  | fileInfo
  | firmwareBuffer
  | verifyBuffer
  | flashBuffer
  deriving DecidableEq, Repr

inductive ServiceOp
  | sendCommand (c : HostCommand)
  | readMemory (offset length : Nat)
  | shellOpenFileByName (filename : String)
  | shellGetFileInfo
  | shellReadFile (size : UInt64)
  | shellWriteFile (size : UInt64) (buffer : Mem)
  | shellCloseFile
  | shellStrToUintn (text : String)
  | allocatePool (block : Block) (size : UInt64)
  | freePool (block : Block)
  | readKeyStroke
  | stall (usec : Nat)
  /-- The contents of an uninitialised local. -/
  | indeterminate

/-- A file information block is its `FileSize`, or NULL; a shell read returns the number of bytes
read; an allocation is the contents of the new block, or NULL. -/
@[reducible] def ServiceOp.Ans : ServiceOp → Type
  | .sendCommand _ => Reply
  | .readMemory .. => Mem
  | .shellOpenFileByName _ => EfiStatus
  | .shellGetFileInfo => Option UInt64
  | .shellReadFile _ => EfiStatus × UInt64
  | .shellWriteFile .. => EfiStatus
  | .shellCloseFile => EfiStatus
  | .shellStrToUintn _ => UInt64
  | .allocatePool .. => Option Mem
  | .freePool _ => Unit
  | .readKeyStroke => EfiStatus
  | .stall _ => Unit
  | .indeterminate => Mem

@[reducible] def Services : Signature := ⟨ServiceOp, ServiceOp.Ans⟩

def sendCommand (command version : Nat) (outdata : List UInt8) (insize : Nat) : Prog Services Reply :=
  Prog.perform (E := Services) (.sendCommand ⟨command, version, outdata, insize⟩)

def readMemory (offset length : Nat) : Prog Services Mem :=
  Prog.perform (E := Services) (.readMemory offset length)

def shellOpenFileByName (filename : String) : Prog Services EfiStatus :=
  Prog.perform (E := Services) (.shellOpenFileByName filename)

def shellGetFileInfo : Prog Services (Option UInt64) := Prog.perform (E := Services) .shellGetFileInfo

def shellReadFile (size : UInt64) : Prog Services (EfiStatus × UInt64) :=
  Prog.perform (E := Services) (.shellReadFile size)

def shellWriteFile (size : UInt64) (buffer : Mem) : Prog Services EfiStatus :=
  Prog.perform (E := Services) (.shellWriteFile size buffer)

def shellCloseFile : Prog Services EfiStatus := Prog.perform (E := Services) .shellCloseFile

def shellStrToUintn (text : String) : Prog Services UInt64 :=
  Prog.perform (E := Services) (.shellStrToUintn text)

def allocatePool (block : Block) (size : UInt64) : Prog Services (Option Mem) :=
  Prog.perform (E := Services) (.allocatePool block size)

def freePool (block : Block) : Prog Services Unit := Prog.perform (E := Services) (.freePool block)

def readKeyStroke : Prog Services EfiStatus := Prog.perform (E := Services) .readKeyStroke

def stall (usec : Nat) : Prog Services Unit := Prog.perform (E := Services) (.stall usec)

def indeterminate : Prog Services Mem := Prog.perform (E := Services) .indeterminate

/-- A response buffer of `insize` bytes after the call. -/
def Reply.into (r : Reply) (buffer : Mem) (insize : Nat) : Mem :=
  buffer.overlay (r.data.take insize)

end FrameworkHacks.ECTool
