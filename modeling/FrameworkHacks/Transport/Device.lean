import FrameworkHacks.Transport.Ports

/-!
# The EC on the other side of the ports

The EC itself is an arbitrary machine (`Ec`): it answers reads of the status and the result
register, is told of writes to the command register, and may rewrite the packet window at any of
these. It is attached to the ports in one of two ways.

* `emi`: the Microchip interface. A 16-bit write to 0x802 sets the address register; ports
  0x804..0x807 then stand for the four bytes of the addressed double word, and in mode 3 an access
  that covers 0x807 advances the address by 4.
* `npcx`: the EC's memory is port space; the packet window is at 0x800..0x8FF.

Both are a `Bus`, the memory the host reaches through ports. It keeps the list of the addresses the
host has read, which no program can see.
-/

namespace FrameworkHacks.Transport

open Effects

/-- The packet window, `EC_LPC_HOST_PACKET_SIZE` bytes. -/
abbrev Window := Fin 256 → UInt8

namespace Window

/-- The window as memory from its first byte on. -/
def mem (w : Window) : Mem := fun i => if h : i < 256 then w ⟨i, h⟩ else 0

/-- The window with its first `n` bytes replaced. -/
def write (w : Window) (src : Mem) (n : Nat) : Window := fun i => if i.val < n then src i else w i

theorem mem_lt (w : Window) {i : Nat} (h : i < 256) : w.mem i = w ⟨i, h⟩ := dif_pos h

theorem write_congr (w : Window) {src src' : Mem} {n : Nat} (h : ∀ i < n, src i = src' i) :
    w.write src n = w.write src' n := by
  funext i
  simp only [write]
  split
  · exact h _ ‹_›
  · rfl

end Window

/-- The EC: a machine with a hidden state of type `σ`. `status` and `result` answer a read of port
0x204 and 0x200, `command` takes a write of port 0x204; each may change the packet window. -/
structure Ec (σ : Type) where
  status : σ × Window → UInt8 × σ × Window
  result : σ × Window → UInt8 × σ × Window
  command : UInt8 → σ × Window → σ × Window

/-- An EC that does nothing, and leaves the packet window alone. -/
def idleEc : Ec Unit := ⟨fun s => (0, s), fun s => (0, s), fun _ s => s⟩

/-- The memory behind the ports, the EC, and the addresses the host has read. -/
structure Bus (σ : Type) where
  ec : σ
  mem : Mem
  reads : List Nat

namespace Bus

variable {σ : Type}

/-- The packet window, which begins at address `base`. -/
def window (b : Bus σ) (base : Nat) : Window := fun i => b.mem (base + i)

/-- The EC goes into a new state and rewrites the window. -/
def setEc (b : Bus σ) (base : Nat) (s : σ × Window) : Bus σ :=
  { b with ec := s.1, mem := b.mem.copy base s.2.mem 256 }

/-- The host reads `n` bytes at `a`. -/
def fetch (b : Bus σ) (a n : Nat) : Bus σ := { b with reads := b.reads ++ List.range' a n }

/-- The host writes `n` bytes at `a`. -/
def put (b : Bus σ) (a : Nat) (src : Mem) (n : Nat) : Bus σ := { b with mem := b.mem.copy a src n }

@[simp] theorem setEc_ec (b : Bus σ) (base : Nat) (s : σ × Window) : (b.setEc base s).ec = s.1 := rfl

@[simp] theorem setEc_reads (b : Bus σ) (base : Nat) (s : σ × Window) :
    (b.setEc base s).reads = b.reads := rfl

@[simp] theorem setEc_window (b : Bus σ) (base : Nat) (s : σ × Window) :
    (b.setEc base s).window base = s.2 := by
  funext i
  simp only [window, setEc]
  rw [Mem.copy_in _ _ i.isLt, Window.mem_lt _ i.isLt]

theorem put_window (b : Bus σ) (base : Nat) (src : Mem) (n : Nat) :
    (b.put base src n).window base = (b.window base).write src n := by
  funext i
  simp only [window, put, Window.write]
  by_cases hi : i.val < n
  · rw [if_pos hi, Mem.copy_in _ _ hi]
  · rw [if_neg hi, Mem.copy_out _ _ (by omega)]

end Bus

/-! ### The Microchip interface -/

/-- A bus behind the address register. -/
structure Emi (σ : Type) extends Bus σ where
  address : UInt16

namespace Emi

variable {σ : Type}

/-- The double word the data registers stand for. -/
def dword (d : Emi σ) : Nat := (d.address &&& 0xFFFC).toNat

/-- An access to `w` bytes from data register `i` on moves the address if it covers register 3. -/
def nextAddress (d : Emi σ) (i w : Nat) : UInt16 :=
  if d.address &&& 3 = 3 ∧ 3 < i + w then d.address + 4 else d.address

/-- The host reads `w` bytes from data register `i` on. -/
def fetch (d : Emi σ) (i w : Nat) : Emi σ :=
  { d.toBus.fetch (d.dword + i) w with address := d.nextAddress i w }

/-- The host writes `w` bytes from data register `i` on. -/
def put (d : Emi σ) (i : Nat) (src : Mem) (w : Nat) : Emi σ :=
  { d.toBus.put (d.dword + i) src w with address := d.nextAddress i w }

@[simp] theorem fetch_reads (d : Emi σ) (i w : Nat) :
    (d.fetch i w).reads = d.reads ++ List.range' (d.dword + i) w := rfl

@[simp] theorem put_reads (d : Emi σ) (i : Nat) (src : Mem) (w : Nat) :
    (d.put i src w).reads = d.reads := rfl

end Emi

/-- Whether an access of `w` bytes at `port` lies in the data registers. -/
def isDataRegister (port w : Nat) : Bool := 0x804 ≤ port ∧ port + w ≤ 0x808

def emi {σ : Type} (ec : Ec σ) : Handler Io (Emi σ)
  | .stall _, d => .ok ((), d)
  | .ioRead8 port, d =>
    if port = ecLpcAddrHostCmd then
      let s := ec.status (d.ec, d.window 0)
      .ok (s.1, { d with toBus := d.setEc 0 s.2 })
    else if port = ecLpcAddrHostData then
      let s := ec.result (d.ec, d.window 0)
      .ok (s.1, { d with toBus := d.setEc 0 s.2 })
    else if isDataRegister port 1 then
      .ok (d.mem (d.dword + (port - 0x804)), d.fetch (port - 0x804) 1)
    else .ok (0xFF, d)
  | .ioRead16 port, d =>
    if isDataRegister port 2 then
      .ok (UInt16.ofNat (d.mem.le16 (d.dword + (port - 0x804))), d.fetch (port - 0x804) 2)
    else .ok (0xFFFF, d)
  | .ioWrite8 port v, d =>
    if port = ecLpcAddrHostCmd then
      .ok ((), { d with toBus := d.setEc 0 (ec.command v (d.ec, d.window 0)) })
    else if isDataRegister port 1 then
      .ok ((), d.put (port - 0x804) (fun _ => v) 1)
    else .ok ((), d)
  | .ioWrite16 port v, d =>
    if port = 0x802 then
      .ok ((), { d with address := v })
    else if isDataRegister port 2 then
      .ok ((), d.put (port - 0x804) (Mem.ofList (Mem.le16Bytes v.toNat)) 2)
    else .ok ((), d)

/-! ### The NPCX port window -/

def npcx {σ : Type} (ec : Ec σ) : Handler Io (Bus σ)
  | .stall _, b => .ok ((), b)
  | .ioRead8 port, b =>
    if port = ecLpcAddrHostCmd then
      let s := ec.status (b.ec, b.window ecLpcAddrHostPacket)
      .ok (s.1, b.setEc ecLpcAddrHostPacket s.2)
    else if port = ecLpcAddrHostData then
      let s := ec.result (b.ec, b.window ecLpcAddrHostPacket)
      .ok (s.1, b.setEc ecLpcAddrHostPacket s.2)
    else .ok (b.mem port, b.fetch port 1)
  | .ioRead16 port, b => .ok (UInt16.ofNat (b.mem.le16 port), b.fetch port 2)
  | .ioWrite8 port v, b =>
    if port = ecLpcAddrHostCmd then
      .ok ((), b.setEc ecLpcAddrHostPacket (ec.command v (b.ec, b.window ecLpcAddrHostPacket)))
    else .ok ((), b.put port (fun _ => v) 1)
  | .ioWrite16 port v, b => .ok ((), b.put port (Mem.ofList (Mem.le16Bytes v.toNat)) 2)

end FrameworkHacks.Transport
