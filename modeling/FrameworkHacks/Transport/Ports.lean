import FrameworkHacks.Protocol

/-!
# Port input and output

The operations both hardware libraries are built from: port reads and writes of one and two bytes
and the boot service `Stall`. `Direction` and `transferByte` are the part the two `ECTransfer`
functions share. The kinds of port accesses are those the host command protocol tells apart.
-/

namespace FrameworkHacks.Transport

open Effects

inductive IoOp
  | ioRead8 (port : Nat)
  | ioRead16 (port : Nat)
  | ioWrite8 (port : Nat) (value : UInt8)
  | ioWrite16 (port : Nat) (value : UInt16)
  | stall (usec : Nat)

@[reducible] def IoOp.Ans : IoOp → Type
  | .ioRead8 _ => UInt8
  | .ioRead16 _ => UInt16
  | _ => Unit

@[reducible] def Io : Signature := ⟨IoOp, IoOp.Ans⟩

def ioRead8 (port : Nat) : Prog Io UInt8 := Prog.perform (E := Io) (.ioRead8 port)
def ioRead16 (port : Nat) : Prog Io UInt16 := Prog.perform (E := Io) (.ioRead16 port)
def ioWrite8 (port : Nat) (value : UInt8) : Prog Io Unit :=
  Prog.perform (E := Io) (.ioWrite8 port value)
def ioWrite16 (port : Nat) (value : UInt16) : Prog Io Unit :=
  Prog.perform (E := Io) (.ioWrite16 port value)
def stall (usec : Nat) : Prog Io Unit := Prog.perform (E := Io) (.stall usec)

/-- Every port reads 0. -/
def zeroPorts : (op : IoOp) → op.Ans
  | .ioRead8 _ => (0 : UInt8)
  | .ioRead16 _ => (0 : UInt16)
  | .ioWrite8 _ _ => ()
  | .ioWrite16 _ _ => ()
  | .stall _ => ()

/-- `EC_TRANSFER_DIRECTION` -/
inductive Direction
  | write
  | read
  deriving DecidableEq, Repr

/-- Moves one byte between a port and `data[i]`. -/
def transferByte (direction : Direction) (port : Nat) (data : Buf) (i : Nat) : Prog Io Buf :=
  match direction with
  | .write => do
    ioWrite8 port (← data.load i)
    return data
  | .read => do
    data.store i (← ioRead8 port)

/-- `ECTransfer(direction, address, data + off, size)`, as each library defines it. -/
abbrev EcTransfer := Direction → (address : UInt16) → (data : Buf) → (off : Nat) →
  (size : UInt16) → Prog Io Buf

/-! ### Kinds of accesses -/

/-- What a ready-wait does: stall and read the status register. -/
def isWaiting (e : Event Io) : Bool :=
  match e.op with
  | .stall _ => true
  | .ioRead8 port => port = ecLpcAddrHostCmd
  | _ => false

def isDoorbell (e : Event Io) : Bool :=
  match e.op with
  | .ioWrite8 port _ => port = ecLpcAddrHostCmd
  | _ => false

def isPortWrite (e : Event Io) : Bool :=
  match e.op with
  | .ioWrite8 _ _ => true
  | .ioWrite16 _ _ => true
  | _ => false

/-- A read of anything but the status and the result register. -/
def isResponseRead (e : Event Io) : Bool :=
  match e.op with
  | .ioRead8 port => port ≠ ecLpcAddrHostCmd ∧ port ≠ ecLpcAddrHostData
  | .ioRead16 _ => true
  | _ => false

/-- What a transfer to the EC does: write packet bytes, or the address register. -/
def isPacketWrite (e : Event Io) : Bool := isPortWrite e && !isDoorbell e

/-- What a transfer does in either direction. -/
def isTransfer (e : Event Io) : Bool := isPacketWrite e || isResponseRead e

/-- What a transfer in this direction does. -/
def moves (direction : Direction) (e : Event Io) : Bool :=
  match direction with
  | .write => isPacketWrite e
  | .read => isTransfer e

theorem isPacketWrite_ans {e : Event Io} (h : isPacketWrite e = true) (x : Io.Ans e.op) : x = e.ans := by
  obtain ⟨op, y⟩ := e
  cases op with
  | ioWrite8 port v => rfl
  | ioWrite16 port v => rfl
  | ioRead8 port => cases h
  | ioRead16 port => cases h
  | stall n => cases h

theorem isTransfer_of_write {e : Event Io} (h : isPacketWrite e = true) : isTransfer e = true := by
  rw [isTransfer, h, Bool.true_or]

theorem isResponseRead_of_write {e : Event Io} (h : isPacketWrite e = true) :
    isResponseRead e = false := by
  obtain ⟨op, y⟩ := e
  cases op <;> simp_all [isPacketWrite, isPortWrite, isResponseRead]

theorem isTransfer_not {e : Event Io} (h : isTransfer e = true) :
    isWaiting e = false ∧ isDoorbell e = false := by
  obtain ⟨op, y⟩ := e
  cases op <;> simp_all [isTransfer, isPacketWrite, isPortWrite, isResponseRead, isWaiting, isDoorbell]

theorem isWaiting_not {e : Event Io} (h : isWaiting e = true) :
    isPortWrite e = false ∧ isDoorbell e = false ∧ isResponseRead e = false := by
  obtain ⟨op, y⟩ := e
  cases op <;> simp_all [isPortWrite, isResponseRead, isWaiting, isDoorbell]

theorem moves_ioWrite16 (direction : Direction) (port : Nat) (v : UInt16) :
    moves direction ⟨.ioWrite16 port v, ()⟩ = true := by
  cases direction <;> rfl

end FrameworkHacks.Transport
