import FrameworkHacks.Transport.HostCommand

/-!
# AzaleaCrosECLib

The EC's memory is mapped into port space, byte by byte: the packet window at 0x800, the rest at
0xE00.
-/

namespace FrameworkHacks.Transport.Azalea

open Effects

/-- `-(c) & bits`: all of `bits` if `c`, none otherwise. -/
def bitsIf (c : Bool) (bits : UInt16) : UInt16 := (0 - c.toUInt16) &&& bits

def basePort (address : UInt16) : UInt16 :=
  let basePort : UInt16 := 0x800
  -- bits 9, 10 if the address is over 0xFF
  let basePort := basePort ||| bitsIf (address &&& 0xFF00 > 0) 0b0000011000000000
  -- bit 8 if the address is over 0xFFF
  basePort ||| bitsIf (address &&& 0xF000 > 0) 0b0000000100000000

def ecTransfer : EcTransfer := fun direction address data off size =>
  let base := (basePort address).toNat
  let address := (address &&& 0xFF).toNat
  Prog.forRange (fun i data => transferByte direction (base + address + i) data (off + i))
    0 size.toNat data

/-- `ECSendCommand` -/
def ecSendCommand (u r : Mem) (command version : UInt64) (outdata : Mem) (outsize : UInt64)
    (indata : Mem) (insize : UInt64) : Prog Io (Int × Mem) :=
  ecSendCommandWith ecTransfer u r command version outdata outsize indata insize

end FrameworkHacks.Transport.Azalea
