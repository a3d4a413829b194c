import FrameworkHacks.Library.Interpret
import FrameworkHacks.Transport.ReadMemory

/-!
# The EC protocol

`EFI_CROSEC_PROTOCOL` has two members, and `CrosEc` is the signature of the two. Each hardware library
implements it over ports (`Mec.mCrosECProtocol`, `Azalea.mCrosECProtocol`); `machine ec` is the protocol
without any ports, a device whose state is the EC, the packet window and the memory map. On its own
hardware each library is that device (`Mec.realizes`, `Azalea.realizes`), so what a program of the protocol
does is the same on both.

A host command leaves the memory map alone. That is had from the exchange itself, with the memory map as a
part of the EC that the EC does not touch (`Ec.beside`).
-/

namespace FrameworkHacks.Transport

open Effects

variable {σ τ D : Type}

/-! ### The protocol -/

inductive CrosEcOp
  | sendCommand (command version : UInt64) (outdata : Mem) (outsize : UInt64) (indata : Mem)
      (insize : UInt64)
  | readMemory (offset : UInt64) (buffer : Buf) (length : UInt64)

/-- The value, and the caller's buffer after the call. -/
@[reducible] def CrosEcOp.Ans : CrosEcOp → Type
  | .sendCommand .. => Int × Mem
  | .readMemory .. => Int × Buf

@[reducible] def CrosEc : Signature := ⟨CrosEcOp, CrosEcOp.Ans⟩

/-- The protocol over a library's `ECTransfer`. `u` and `r` are what the two unions of `ECSendCommand` hold
when it is called. -/
def protocolWith (xfer : EcTransfer) (u r : Mem) : Impl CrosEc Io
  | .sendCommand command version outdata outsize indata insize =>
    ecSendCommandWith xfer u r command version outdata outsize indata insize
  | .readMemory offset buffer length => ecReadMemoryWith xfer offset buffer length

/-- `mCrosECProtocol` of MicrochipCrosECLib -/
def Mec.mCrosECProtocol (u r : Mem) : Impl CrosEc Io := protocolWith Mec.ecTransfer u r

/-- `mCrosECProtocol` of AzaleaCrosECLib -/
def Azalea.mCrosECProtocol (u r : Mem) : Impl CrosEc Io := protocolWith Azalea.ecTransfer u r

/-! ### The protocol without ports -/

structure Machine (σ : Type) where
  ec : σ
  window : Window
  map : Mem

def Machine.link (m : Machine σ) : Link σ := ⟨m.ec, m.window, []⟩

def machine (ec : Ec σ) : Handler CrosEc (Machine σ)
  | .sendCommand command version outdata outsize indata insize, m =>
    let e := exchange ec command version outdata outsize indata insize m.link
    match e.1 with
    | some res => .ok (res, { m with ec := e.2.ec, window := e.2.window })
    | none => .error .fault
  | .readMemory offset buffer length, m =>
    if length.toNat ≤ buffer.size then
      .ok (((length.toNat : Int), ⟨buffer.bytes.copy 0 (m.map.drop offset.toNat) length.toNat, buffer.size⟩), m)
    else .error .fault

/-- The calls for which the two libraries are the same: a read of the memory map asks for bytes of it, not
for a string, and reaches to the next multiple of four. -/
def Plain : CrosEcOp → Prop
  | .sendCommand .. => True
  | .readMemory offset buffer length =>
    0 < length.toNat ∧ offset.toNat + length.toNat ≤ ecMemmapSize ∧ length.toNat ≤ buffer.size ∧
      Mec.pad offset.toNat ≤ length.toNat

/-- A plain call whose buffers are within the limits of the protocol. -/
def WithinLimits : CrosEcOp → Prop
  | .sendCommand _ _ _ outsize _ insize => outsize.toNat ≤ gEcMaxRequest ∧ insize.toNat ≤ gEcMaxResponse
  | .readMemory offset buffer length => Plain (.readMemory offset buffer length)

theorem WithinLimits.plain {op : CrosEcOp} (h : WithinLimits op) : Plain op := by
  cases op with
  | sendCommand => trivial
  | readMemory => exact h

/-! ### An EC with something beside it -/

/-- The EC with a further part of its state that it does not touch. -/
def Ec.beside (ec : Ec σ) (τ : Type) : Ec (σ × τ) where
  status s := let r := ec.status (s.1.1, s.2); (r.1, (r.2.1, s.1.2), r.2.2)
  result s := let r := ec.result (s.1.1, s.2); (r.1, (r.2.1, s.1.2), r.2.2)
  command v s := let r := ec.command v (s.1.1, s.2); ((r.1, s.1.2), r.2)

/-- The link with that part, after some other reads. -/
def Link.beside (x : τ) (rs : List Nat) (l : Link σ) : Link (σ × τ) :=
  ⟨(l.ec, x), l.window, rs ++ l.reads⟩

section Beside

variable (ec : Ec σ) (x : τ) (rs : List Nat)

theorem Link.await_beside (n : Nat) (l : Link σ) :
    (l.beside x rs).await (ec.beside τ) n = ((l.await ec n).1, (l.await ec n).2.beside x rs) := by
  induction n generalizing l with
  | zero => rfl
  | succ n ih =>
    by_cases hready : (l.status ec).1 &&& ecLpcStatusBusyMask = 0
    · rw [await_ready n hready, await_ready n (l := l.beside x rs) hready]
      rfl
    · rw [await_busy n hready, await_busy n (l := l.beside x rs) hready]
      exact ih (l.status ec).2

theorem Link.fetch_beside (l : Link σ) (a n : Nat) :
    (l.beside x rs).fetch a n = (l.fetch a n).beside x rs := by
  simp [beside, fetch]

theorem responseReads_beside (w : Mem) (insize : Nat) (l : Link σ) :
    responseReads w insize (l.beside x rs) = (responseReads w insize l).beside x rs := by
  simp only [responseReads, Link.fetch_beside]
  split <;> rfl

theorem handshake_beside (command version : UInt64) (payload : Mem) (n : Nat) (l : Link σ) :
    handshake (ec.beside τ) command version payload n (l.beside x rs) =
      ((handshake ec command version payload n l).1,
        (handshake ec command version payload n l).2.beside x rs) := by
  rw [handshake, handshake, Link.await_beside]
  generalize l.await ec readyPolls = s
  obtain ⟨_ | _, l₁⟩ := s
  · rfl
  simp only [Bool.not_true, Bool.false_eq_true, if_false]
  have hcommand : ((l₁.beside x rs).write (requestPacket command version payload n) (n + 8)).command
      (ec.beside τ) ecCommandProtocol3 = ((l₁.write (requestPacket command version payload n)
        (n + 8)).command ec ecCommandProtocol3).beside x rs := rfl
  rw [hcommand, Link.await_beside]
  generalize Link.await ec readyPolls _ = s
  obtain ⟨_ | _, l₂⟩ := s
  · rfl
  have hresult : (l₂.beside x rs).result (ec.beside τ) =
      ((l₂.result ec).1, (l₂.result ec).2.beside x rs) := rfl
  simp only [Bool.not_true, Bool.false_eq_true, if_false, hresult]
  split <;> rfl

theorem exchange_beside (command version : UInt64) (payload : Mem) (outsize : UInt64) (indata : Mem)
    (insize : UInt64) (l : Link σ) :
    exchange (ec.beside τ) command version payload outsize indata insize (l.beside x rs) =
      ((exchange ec command version payload outsize indata insize l).1,
        (exchange ec command version payload outsize indata insize l).2.beside x rs) := by
  rw [exchange, exchange, handshake_beside]
  generalize handshake ec command version payload outsize.toNat l = s
  obtain ⟨rv, l₁⟩ := s
  split
  · rfl
  split
  · rfl
  simp only [responseReads_beside]
  split
  · rfl
  · rfl

end Beside

/-! ### What a host command leaves alone -/

/-- Nothing a host command does to the device changes what `map` shows. -/
structure Frames (h : Handler Io D) (xfer : EcTransfer) (map : D → Mem) : Prop where
  stall : ∀ n d y, h (.stall n) d = .ok y → map y.2 = map d
  read : ∀ port d y, h (.ioRead8 port) d = .ok y → map y.2 = map d
  command : ∀ v d y, h (.ioWrite8 ecLpcAddrHostCmd v) d = .ok y → map y.2 = map d
  put : ∀ (data : Buf) n d, n ≤ 256 → n ≤ data.size →
    Prog.Ends h (xfer .write 0 data 0 (UInt16.ofNat n)) d fun _ d' => map d' = map d
  fetch : ∀ a (data : Buf) off n d, a + n ≤ 256 → off + n ≤ data.size → a % 4 = 0 →
    Prog.Ends h (xfer .read (UInt16.ofNat a) data off (UInt16.ofNat n)) d fun _ d' => map d' = map d

section Frames

variable {ec : Ec σ} {h : Handler Io D} {xfer : EcTransfer} {view : D → Link σ} {map : D → Mem}

theorem Carries.beside (hc : Carries ec h xfer view) (hf : Frames h xfer map) :
    Carries (ec.beside Mem) h xfer fun d => (view d).beside (map d) [] where
  stall := hc.stall
  status d := by
    obtain ⟨d', hop, hview⟩ := hc.status d
    exact ⟨d', hop, by rw [hview, hf.read _ d _ hop]; rfl⟩
  result d := by
    obtain ⟨d', hop, hview⟩ := hc.result d
    exact ⟨d', hop, by rw [hview, hf.read _ d _ hop]; rfl⟩
  command v d := by
    obtain ⟨d', hop, hview⟩ := hc.command v d
    exact ⟨d', hop, by rw [hview, hf.command v d _ hop]; rfl⟩
  write data n d hn hfit := by
    refine ((hc.write data n d hn hfit).and (hf.put data n d hn hfit)).mono fun _ d' hd => ?_
    rw [hd.1, hd.2]
    rfl
  read a data off n d ha hn hfit := by
    refine ((hc.read a data off n d ha hn hfit).and (hf.fetch a data off n d hn hfit ha)).mono
      fun _ d' hd => ⟨hd.1.1, ?_⟩
    rw [hd.1.2, hd.2, Link.fetch_beside]
  readPast a data off n d hpos hn hpast := hc.readPast a data off n d hpos hn hpast

end Frames

/-! ### A library is the protocol -/

/-- The device shows the host this machine. -/
structure Shows (link : D → Link σ) (map : D → Mem) (m : Machine σ) (d : D) : Prop where
  ec : (link d).ec = m.ec
  window : (link d).window = m.window
  map : ∀ i < 0x100, map d i = m.map i

/-- A library that carries host commands, leaves the memory map alone, and reads it. -/
structure Serves (ec : Ec σ) (h : Handler Io D) (xfer : EcTransfer) (link : D → Link σ) (map : D → Mem) :
    Prop where
  carries : Carries ec h xfer link
  frames : Frames h xfer map
  reads : ∀ a (data : Buf) n d, 0 < n → a + n ≤ ecMemmapSize → n ≤ data.size → Mec.pad a ≤ n →
    Prog.Ends h (xfer .read (UInt16.ofInt (0x100 + a : Nat)) data 0 (UInt16.ofNat n)) d fun data' d' =>
      data' = ⟨data.bytes.copy 0 ((map d).drop a) n, data.size⟩ ∧ (link d').ec = (link d).ec ∧
        (link d').window = (link d).window ∧ map d' = map d

namespace Serves

variable {ec : Ec σ} {h : Handler Io D} {xfer : EcTransfer} {link : D → Link σ} {map : D → Mem}

theorem sendCommand (hs : Serves ec h xfer link map) (u r : Mem) (command version : UInt64) (outdata : Mem)
    (outsize : UInt64) (indata : Mem) (insize : UInt64) {m : Machine σ} {d : D}
    (hshow : Shows link map m d) :
    Prog.Matches h (Shows link map)
      (ecSendCommandWith xfer u r command version outdata outsize indata insize) d
      ((Prog.perform (E := CrosEc) (.sendCommand command version outdata outsize indata insize)).exec
        (machine ec) m) := by
  have hgives := (hs.carries.beside hs.frames).sendCommand u r command version outdata outsize indata insize d
  -- the link of the device is that of the machine, with the memory map beside it and the reads before it
  have hlink : (link d).beside (map d) [] = m.link.beside (map d) (link d).reads := by
    simp only [Link.beside, Machine.link, hshow.ec, hshow.window, List.nil_append, List.append_nil]
  rw [hlink, exchange_beside] at hgives
  simp only [Prog.perform, Prog.exec, machine]
  cases hres : (exchange ec command version outdata outsize indata insize m.link).1 with
  | none =>
    obtain ⟨d', hexec, -⟩ := hgives.none hres
    exact ⟨d', hexec⟩
  | some res =>
    obtain ⟨d', hexec, hview⟩ := hgives.some hres
    have hwindow := congrArg Link.window hview
    obtain ⟨hec, hmap⟩ := Prod.mk.inj (congrArg Link.ec hview)
    exact ⟨res, d', hexec, rfl, hec, hwindow, fun i hi => (congrFun hmap i).trans (hshow.map i hi)⟩

theorem readMemory (hs : Serves ec h xfer link map) (offset : UInt64) (buffer : Buf) (length : UInt64)
    (hplain : Plain (.readMemory offset buffer length)) {m : Machine σ} {d : D} (hshow : Shows link map m d) :
    Prog.Ends h (ecReadMemoryWith xfer offset buffer length) d fun res d' =>
      res = ((length.toNat : Int),
        ⟨buffer.bytes.copy 0 (m.map.drop offset.toNat) length.toNat, buffer.size⟩) ∧
        Shows link map m d' := by
  obtain ⟨hpos, hsum, hsize, hpad⟩ := hplain
  have hsum' : offset.toNat + length.toNat ≤ 255 := hsum
  have hguard : ¬ (offset + length).toNat > ecMemmapSize := by
    rw [UInt64.toNat_add, Nat.mod_eq_of_lt (by omega)]
    exact Nat.not_lt.2 hsum
  have hlen : length > 0 := UInt64.lt_iff_toNat_lt.2 hpos
  unfold ecReadMemoryWith
  rw [if_neg hguard, if_pos hlen, toInt_of_lt (by omega), addInt_of_le (by omega) (by omega), pure_bind,
    toInt_of_lt (by omega)]
  refine (hs.reads offset.toNat buffer length.toNat d hpos hsum hsize hpad).bind ?_
  rintro data' d' ⟨rfl, hec, hwindow, hmap⟩
  refine .pure ⟨?_, hec.trans hshow.ec, hwindow.trans hshow.window, fun i hi => by rw [hmap]; exact hshow.map i hi⟩
  rw [Mem.copy_congr (t := m.map.drop offset.toNat) fun i hi => by
    rw [Mem.drop_apply, Mem.drop_apply]; exact hshow.map _ (by omega)]

/-- **The library is the machine.** -/
theorem realizes (hs : Serves ec h xfer link map) (u r : Mem) :
    Realizes (machine ec) h (protocolWith xfer u r) (Shows link map) Plain := by
  intro op m d hplain hshow
  cases op with
  | sendCommand command version outdata outsize indata insize =>
    exact hs.sendCommand u r command version outdata outsize indata insize hshow
  | readMemory offset buffer length =>
    have hread := hs.readMemory offset buffer length hplain hshow
    simp only [Prog.perform, Prog.exec, machine]
    rw [if_pos hplain.2.2.1]
    exact hread

end Serves

/-! ### Both libraries -/

/-- The memory map behind the Microchip interface. -/
def Mec.memmap (d : Emi σ) : Mem := d.mem.drop 0x100

/-- The memory map in port space. -/
def Azalea.memmap (b : Bus σ) : Mem := b.mem.drop 0xE00

theorem setEc_drop (b : Bus σ) (base k : Nat) (s : σ × Window) (hk : base + 256 ≤ k) :
    (b.setEc base s).mem.drop k = b.mem.drop k := by
  funext i
  exact Mem.copy_out _ _ (by omega)

theorem put_drop (b : Bus σ) (a n k : Nat) (src : Mem) (hk : a + n ≤ k) :
    (b.put a src n).mem.drop k = b.mem.drop k := by
  funext i
  exact Mem.copy_out _ _ (by omega)

theorem Mec.frames (ec : Ec σ) : Frames (emi ec) ecTransfer memmap where
  stall n d y hop := by cases hop; rfl
  read port d y hop := by
    simp only [emi] at hop
    split_ifs at hop <;> cases hop
    · exact setEc_drop _ 0 _ _ (by decide)
    · exact setEc_drop _ 0 _ _ (by decide)
    · rfl
    · rfl
  command v d y hop := by
    cases hop
    exact setEc_drop _ 0 _ _ (by decide)
  put data n d hn hfit := by
    have hreach : reach 0 n = n := by simp [reach, pad]
    refine (ends_ecTransfer ec .write 0 0 n data d (by omega) (by omega)).mono fun _ d' h => ?_
    rw [hreach] at h
    have hbus : d'.toBus = d.toBus.put 0 (data.bytes.drop 0) n := congrArg Prod.snd h
    rw [memmap, hbus, put_drop _ _ _ _ _ (by omega), memmap]
  fetch a data off n d hn hfit ha := by
    have hreach : reach a n = n := by simp [reach, pad, ha]
    refine (ends_ecTransfer ec .read a off n data d (by omega) (by omega)).mono fun _ d' h => ?_
    have hbus : d'.toBus = d.toBus.fetch a (reach a n) := congrArg Prod.snd h
    rw [memmap, hbus]
    rfl

theorem Azalea.frames (ec : Ec σ) : Frames (npcx ec) ecTransfer memmap where
  stall n b y hop := by cases hop; rfl
  read port b y hop := by
    simp only [npcx] at hop
    split_ifs at hop <;> cases hop
    · exact setEc_drop _ _ _ _ (by decide)
    · exact setEc_drop _ _ _ _ (by decide)
    · rfl
  command v b y hop := by
    cases hop
    exact setEc_drop _ _ _ _ (by decide)
  put data n b hn hfit := by
    refine (ends_ecTransfer ec .write 0 0 n data b (by omega) (by omega)).mono fun _ b' h => ?_
    have hbus : b' = b.put ecLpcAddrHostPacket (data.bytes.drop 0) n := congrArg Prod.snd h
    rw [memmap, hbus, put_drop _ _ _ _ _ (by simp only [ecLpcAddrHostPacket]; omega), memmap]
  fetch a data off n b hn hfit ha := by
    refine (ends_ecTransfer ec .read _ off n data b (by omega) hfit).mono fun _ b' h => ?_
    have hbus : b' = b.fetch (portOf (UInt16.ofNat a)) n := congrArg Prod.snd h
    rw [memmap, hbus]
    rfl

theorem Mec.serves (ec : Ec σ) : Serves ec (emi ec) ecTransfer link memmap where
  carries := carries ec
  frames := frames ec
  reads a data n d hn hsum hsize hpad := by
    have hsum' : a + n ≤ 255 := hsum
    have hpad' : pad (0x100 + a) ≤ n := by
      unfold pad at hpad ⊢
      omega
    have hreach : reach (0x100 + a) n = n := Nat.max_eq_left hpad'
    rw [ofInt_natCast (by omega)]
    refine (ends_ecTransfer ec .read (0x100 + a) 0 n data d (by omega) (by omega)).mono fun data' d' h => ?_
    rw [hreach] at h
    obtain ⟨rfl, hbus⟩ := Prod.mk.inj h
    refine ⟨?_, ?_, ?_, ?_⟩
    · rw [Mem.copy_congr fun i _ => ?_]
      simp only [memmap, Mem.drop_apply, Nat.add_assoc]
    · simp only [link, hbus]
      rfl
    · simp only [link, hbus]
      rfl
    · simp only [memmap, hbus]
      rfl

theorem Azalea.serves (ec : Ec σ) : Serves ec (npcx ec) ecTransfer link memmap where
  carries := carries ec
  frames := frames ec
  reads a data n b hn hsum hsize _ := by
    have hsum' : a + n ≤ 255 := hsum
    rw [ofInt_natCast (by omega)]
    refine (ends_ecTransfer ec .read _ 0 n data b (by omega) (by omega)).mono fun data' b' h => ?_
    rw [portOf_memmap a (by omega)] at h
    obtain ⟨rfl, rfl⟩ := Prod.mk.inj h
    refine ⟨?_, rfl, rfl, rfl⟩
    rw [Mem.copy_congr fun i _ => ?_]
    simp only [memmap, Mem.drop_apply, Nat.add_assoc]

theorem Mec.realizes (ec : Ec σ) (u r : Mem) :
    Realizes (machine ec) (emi ec) (mCrosECProtocol u r) (Shows link memmap) Plain :=
  (serves ec).realizes u r

theorem Azalea.realizes (ec : Ec σ) (u r : Mem) :
    Realizes (machine ec) (npcx ec) (mCrosECProtocol u r) (Shows link memmap) Plain :=
  (serves ec).realizes u r

end FrameworkHacks.Transport
