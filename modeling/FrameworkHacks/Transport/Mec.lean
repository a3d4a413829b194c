import FrameworkHacks.Transport.HostCommand

/-!
# MicrochipCrosECLib

The EC's memory is reached through an address register and four data registers. A transfer has
three phases: bytes up to the next multiple of four, then double words with the address register in
auto-increment mode, then the bytes left over.
-/

namespace FrameworkHacks.Transport.Mec

open Effects

def mecEcByteAccess : UInt16 := 0x00
def mecEcLongAccessAutoincrement : UInt16 := 0x03

def mecLpcAddressRegister0 : Nat := 0x0802
def mecLpcDataRegister0 : Nat := 0x0804
def mecLpcDataRegister2 : Nat := 0x0806

/-- The locals of a transfer: `pos` bytes are moved, the next one belongs at `address`. -/
structure Cursor where
  pos : Nat
  address : UInt16
  data : Buf

/-- The bytes of `temp` as the value for a 16-bit port. -/
def portWord (temp : Mem) (i : Nat) : UInt16 := UInt16.ofNat (temp.le16 i)

/-- Moves `data[i..i+3]` through the two words of `temp`. -/
def transferDword (direction : Direction) (data : Buf) (i : Nat) : Prog Io Buf :=
  match direction with
  | .write => do
    let temp ← data.copyOut i 4
    ioWrite16 mecLpcDataRegister0 (portWord temp 0)
    ioWrite16 mecLpcDataRegister2 (portWord temp 2)
    return data
  | .read => do
    let temp0 ← ioRead16 mecLpcDataRegister0
    let temp1 ← ioRead16 mecLpcDataRegister2
    data.copyIn i (Mem.ofList (Mem.le16Bytes temp0.toNat ++ Mem.le16Bytes temp1.toNat)) 4

/-- Unaligned start address: the bytes up to the next multiple of four. -/
def transferHead (direction : Direction) (off : Nat) (c : Cursor) : Prog Io Cursor := do
  if c.address % 4 > 0 then
    ioWrite16 mecLpcAddressRegister0 ((c.address &&& 0xFFFC) ||| mecEcByteAccess)
    let first := (c.address % 4).toNat
    let (pos, data) ← Prog.forRange (fun i ((pos, data) : Nat × Buf) => do
      let data ← transferByte direction (mecLpcDataRegister0 + i) data (off + pos)
      return (pos + 1, data)) first (4 - first) (c.pos, c.data)
    return ⟨pos, (c.address + 4) &&& 0xFFFC, data⟩
  else
    return c

/-- One round of `while(size - pos >= 4)`. -/
def dwordRound (direction : Direction) (off : Nat) (size : UInt16) (c : Cursor) :
    Prog Io (Cursor ⊕ Cursor) := do
  if (size.toNat : Int) - c.pos ≥ 4 then
    let data ← transferDword direction c.data (off + c.pos)
    return .inr ⟨c.pos + 4, c.address + 4, data⟩
  else
    return .inl c

/-- Chunk writing for anything large, 4 bytes at a time. -/
def transferBody (direction : Direction) (off : Nat) (size : UInt16) (c : Cursor) :
    Prog Io Cursor := do
  if (size.toNat : Int) - c.pos ≥ 4 then
    ioWrite16 mecLpcAddressRegister0 ((c.address &&& 0xFFFC) ||| mecEcLongAccessAutoincrement)
    Prog.loop (dwordRound direction off size) (size.toNat + 1) c
  else
    return c

/-- Unaligned remaining data, by byte. -/
def transferTail (direction : Direction) (off : Nat) (size : UInt16) (c : Cursor) :
    Prog Io Buf := do
  if (size.toNat : Int) - c.pos > 0 then
    ioWrite16 mecLpcAddressRegister0 ((c.address &&& 0xFFFC) ||| mecEcByteAccess)
    Prog.forRange (fun i data =>
      transferByte direction (mecLpcDataRegister0 + i) data (off + (c.pos + i)))
      0 (size.toNat - c.pos) c.data
  else
    return c.data

def ecTransfer : EcTransfer := fun direction address data off size => do
  let c ← transferHead direction off ⟨0, address, data⟩
  let c ← transferBody direction off size c
  transferTail direction off size c

/-- `ECSendCommandMecLpc` -/
def ecSendCommandMecLpc (u r : Mem) (command version : UInt64) (outdata : Mem) (outsize : UInt64)
    (indata : Mem) (insize : UInt64) : Prog Io (Int × Mem) :=
  ecSendCommandWith ecTransfer u r command version outdata outsize indata insize

end FrameworkHacks.Transport.Mec
