import FrameworkHacks.Transport.Footprint

/-!
# Reading the memory map

`ReadMemory` is the same text in both hardware libraries over the library's own `ECTransfer`: it
reads either the bytes asked for or, if none are asked for, a string. The memory map is at 0x100 of
the EC's memory and at ports 0xE00 on. The Microchip transfer writes up to the next multiple of four
whatever its size, so its `ReadMemory` may leave a buffer that holds the result: the libraries read
the same bytes exactly if the caller's memory has room for that too (`readMemory_agree_iff`). Inside
the buffer, what it writes in excess the next round of the string loop overwrites.
-/

namespace FrameworkHacks.Transport

open Effects

variable {σ τ D : Type}

/-- The locals of the loop that reads a string; `s` points at byte `s` of the buffer. -/
structure StringCursor where
  off : Int
  cnt : Int
  s : Nat
  buffer : Buf

/-- What the round does with the byte it has read: a NUL ends the loop. -/
def stringByte (c : StringCursor) (buffer : Buf) : Prog Io ((Int × Buf) ⊕ StringCursor) := do
  let cnt ← addInt c.cnt 1
  if (← buffer.load c.s) = 0 then
    return .inl (cnt, buffer)
  return .inr ⟨← addInt c.off 1, cnt, c.s + 1, buffer⟩

/-- One round of the loop: the byte at `off`. -/
def stringRound (ecTransfer : EcTransfer) (c : StringCursor) :
    Prog Io ((Int × Buf) ⊕ StringCursor) := do
  if c.off < ecMemmapSize then
    let address ← addInt 0x100 c.off
    let buffer ← ecTransfer .read (UInt16.ofInt address) c.buffer c.s 1
    stringByte c buffer
  else
    return .inl (c.cnt, c.buffer)

/-- `ECReadMemory` over a library's `ECTransfer`; the result is the count and the buffer. -/
def ecReadMemoryWith (ecTransfer : EcTransfer) (offset : UInt64) (buffer : Buf) (length : UInt64) :
    Prog Io (Int × Buf) := do
  let off := toInt offset.toNat
  -- `offset + length` is computed in 64 bits
  if (offset + length).toNat > ecMemmapSize then
    return (-1, buffer)
  if length > 0 then
    -- read specified bytes directly
    let address ← addInt 0x100 off
    let buffer ← ecTransfer .read (UInt16.ofInt address) buffer 0 length.toUInt16
    return (toInt length.toNat, buffer)
  else
    -- read a string until we get a NUL
    Prog.loop (stringRound ecTransfer) 256 ⟨off, 0, 0, buffer⟩

/-- `ECReadMemoryMecLpc` -/
def Mec.ecReadMemoryMecLpc (offset : UInt64) (buffer : Buf) (length : UInt64) : Prog Io (Int × Buf) :=
  ecReadMemoryWith Mec.ecTransfer offset buffer length

/-- `ECReadMemory` -/
def Azalea.ecReadMemory (offset : UInt64) (buffer : Buf) (length : UInt64) : Prog Io (Int × Buf) :=
  ecReadMemoryWith Azalea.ecTransfer offset buffer length

/-! ### Strings in memory -/

/-- `c` bytes of the `n` at `off` make a string: they end with the first NUL, or there is none and they
are all `n`. -/
def IsString (m : Mem) (off n c : Nat) : Prop :=
  (c = n ∧ ∀ i < n, m (off + i) ≠ 0) ∨
    ∃ k < n, c = k + 1 ∧ m (off + k) = 0 ∧ ∀ i < k, m (off + i) ≠ 0

/-- The length of the string, with its NUL. -/
def stringLength (m : Mem) (off : Nat) : Nat → Nat
  | 0 => 0
  | n + 1 => if m off = 0 then 1 else stringLength m (off + 1) n + 1

theorem isString_stringLength (m : Mem) (off n : Nat) : IsString m off n (stringLength m off n) := by
  induction n generalizing off with
  | zero => exact .inl ⟨rfl, by omega⟩
  | succ n ih =>
    rw [stringLength]
    by_cases hnul : m off = 0
    · rw [if_pos hnul]
      exact .inr ⟨0, by omega, rfl, hnul, by omega⟩
    · rw [if_neg hnul]
      -- a byte of the rest is a byte one further on
      have hshift : ∀ k, (∀ i < k, m (off + 1 + i) ≠ 0) → ∀ i < k + 1, m (off + i) ≠ 0 := by
        intro k h i hi
        cases i with
        | zero => exact hnul
        | succ i =>
          rw [Nat.add_comm i 1, ← Nat.add_assoc]
          exact h i (by omega)
      obtain ⟨hc, hall⟩ | ⟨k, hk, hc, hzero, hall⟩ := ih (off + 1)
      · exact .inl ⟨by rw [hc], hshift n hall⟩
      · refine .inr ⟨k + 1, by omega, by rw [hc], ?_, hshift k hall⟩
        rwa [Nat.add_comm k 1, ← Nat.add_assoc]

theorem IsString.unique {m : Mem} {off n c c' : Nat} (h : IsString m off n c)
    (h' : IsString m off n c') : c = c' := by
  obtain ⟨hc, hall⟩ | ⟨k, hk, hc, hzero, hall⟩ := h
  · obtain ⟨hc', -⟩ | ⟨k', hk', -, hzero', -⟩ := h'
    · rw [hc, hc']
    · exact absurd hzero' (hall k' hk')
  · obtain ⟨-, hall'⟩ | ⟨k', hk', hc', hzero', hall'⟩ := h'
    · exact absurd hzero (hall' k hk)
    · have h₁ : ¬ k < k' := fun hlt => hall' k hlt hzero
      have h₂ : ¬ k' < k := fun hlt => hall k' hlt hzero'
      omega

theorem lt_stringLength {m : Mem} {off n k : Nat} (hk : k < n) (h : ∀ i < k, m (off + i) ≠ 0) :
    k < stringLength m off n := by
  obtain ⟨hc, -⟩ | ⟨k', -, hc, hzero, -⟩ := isString_stringLength m off n
  · omega
  · have hle : ¬ k' < k := fun hlt => h k' hlt hzero
    omega

/-! ### One library -/

/-- How many bytes `ReadMemory` reads from the memory map `m`. -/
def readCount (m : Mem) (offset length : Nat) : Nat :=
  if 0 < length then length else stringLength m offset (ecMemmapSize - offset)

/-- `n` bytes of the memory map at `a` are in the buffer at `off`, and what was before them still is. -/
structure Fetched (map : D → Mem) (a n off : Nat) (data : Buf) (d : D) (data' : Buf) (d' : D) : Prop where
  same : map d' = map d
  size : data'.size = data.size
  read : ∀ i < n, data'.bytes (off + i) = map d (a + i)
  before : ∀ j < off, data'.bytes j = data.bytes j

/-- Reads from the memory map through the library's `ECTransfer`. It may write past the bytes asked
for, `spill a n` bytes in all, and it finishes only if they are in the buffer. -/
structure ReadsMap (h : Handler Io D) (xfer : EcTransfer) (map : D → Mem) (spill : Nat → Nat → Nat) :
    Prop where
  read : ∀ a (data : Buf) off n d, 0 < n → a + n ≤ ecMemmapSize → off + spill a n ≤ data.size →
    Prog.Ends h (xfer .read (UInt16.ofInt (0x100 + a : Nat)) data off (UInt16.ofNat n)) d
      (Fetched map a n off data d)
  room : ∀ a (data : Buf) off n d, 0 < n → a + n ≤ ecMemmapSize →
    Prog.Post h (xfer .read (UInt16.ofInt (0x100 + a : Nat)) data off (UInt16.ofNat n)) d
      fun _ _ => off + spill a n ≤ data.size
  le_spill : ∀ a n, n ≤ spill a n

/-- The caller's memory, from the buffer on, has room for all that the call writes. -/
def HasRoom (spill : Nat → Nat → Nat) (m : Mem) (offset length size : Nat) : Prop :=
  if 0 < length then spill offset length ≤ size
  else ∀ k < readCount m offset length, k + spill (offset + k) 1 ≤ size

instance (spill : Nat → Nat → Nat) (m : Mem) (offset length size : Nat) :
    Decidable (HasRoom spill m offset length size) :=
  inferInstanceAs (Decidable (if 0 < length then spill offset length ≤ size
    else ∀ k < readCount m offset length, k + spill (offset + k) 1 ≤ size))

/-- The result of a read of `cnt` bytes of `m`. -/
def ReadFrom (m : Mem) (offset cnt : Nat) (res : Int × Buf) : Prop :=
  res.1 = cnt ∧ ∀ i < cnt, res.2.bytes i = m (offset + i)

namespace ReadsMap

variable {h : Handler Io D} {xfer : EcTransfer} {map : D → Mem} {spill : Nat → Nat → Nat}

theorem post_read (hr : ReadsMap h xfer map spill) (a : Nat) (data : Buf) (off n : Nat) (d : D)
    (hn : 0 < n) (hfit : a + n ≤ ecMemmapSize) :
    Prog.Post h (xfer .read (UInt16.ofInt (0x100 + a : Nat)) data off (UInt16.ofNat n)) d
      fun data' d' => off + spill a n ≤ data.size ∧ Fetched map a n off data d data' d' := by
  intro data' d' hexec
  have hroom := hr.room a data off n d hn hfit data' d' hexec
  exact ⟨hroom, (Prog.ends_iff hexec).1 (hr.read a data off n d hn hfit hroom)⟩

/-- What holds whenever a round of the string loop begins. -/
structure Reading (map : D → Mem) (d₀ : D) (offset size : Nat) (c : StringCursor) (d : D) : Prop where
  off : c.off = (offset + c.s : Nat)
  cnt : c.cnt = c.s
  le : offset + c.s ≤ 255
  size : c.buffer.size = size
  same : map d = map d₀
  read : ∀ i < c.s, c.buffer.bytes i = map d₀ (offset + i)
  nonzero : ∀ i < c.s, map d₀ (offset + i) ≠ 0

namespace Reading

variable {d₀ d d' : D} {offset size : Nat} {c : StringCursor} {data : Buf}

theorem bytes (hc : Reading map d₀ offset size c d)
    (hf : Fetched map (offset + c.s) 1 c.s c.buffer d data d') :
    ∀ i < c.s + 1, data.bytes i = map d₀ (offset + i) := by
  intro i hi
  by_cases his : i = c.s
  · rw [his, ← hc.same]
    exact hf.read 0 (by omega)
  · rw [hf.before i (by omega), hc.read i (by omega)]

theorem next (hc : Reading map d₀ offset size c d) (hmore : offset + c.s < 255)
    (hf : Fetched map (offset + c.s) 1 c.s c.buffer d data d') (hnul : data.bytes c.s ≠ 0) :
    Reading map d₀ offset size ⟨c.off + 1, c.cnt + 1, c.s + 1, data⟩ d' where
  off := by
    simp only [hc.off]
    omega
  cnt := by
    simp only [hc.cnt]
    omega
  le := hmore
  size := hf.size.trans hc.size
  same := hf.same.trans hc.same
  read := hc.bytes hf
  nonzero i hi := by
    by_cases his : i = c.s
    · rw [his, ← hc.bytes hf c.s (by omega)]
      exact hnul
    · exact hc.nonzero i (by simp only at hi; omega)

theorem stringRound_lt (hc : Reading map d₀ offset size c d) (hmore : offset + c.s < 255) :
    stringRound xfer c =
      xfer .read (UInt16.ofInt (0x100 + (offset + c.s) : Nat)) c.buffer c.s 1 >>= stringByte c := by
  have hoff := hc.off
  unfold stringRound ecMemmapSize
  rw [if_pos (by omega), hoff, addInt_of_le (by omega) (by omega), pure_bind]
  congr 2

theorem stringRound_end (hc : Reading map d₀ offset size c d) (xfer : EcTransfer) (hend : ¬ offset + c.s < 255) :
    stringRound xfer c = pure (.inl ((c.s : Int), c.buffer)) ∧
      stringLength (map d₀) offset (255 - offset) = c.s := by
  have hoff := hc.off
  have hle := hc.le
  have hs : c.s = 255 - offset := by omega
  unfold stringRound ecMemmapSize
  rw [if_neg (by omega), hc.cnt]
  exact ⟨rfl, (isString_stringLength _ _ _).unique (.inl ⟨hs, fun i hi => hc.nonzero i (by omega)⟩)⟩

/-- With its byte the string is complete, or the next round begins. -/
theorem stringByte_cases (hc : Reading map d₀ offset size c d) (hmore : offset + c.s < 255)
    (hf : Fetched map (offset + c.s) 1 c.s c.buffer d data d') (hfit : c.s < c.buffer.size) :
    (stringByte c data = pure (.inl (((c.s + 1 : Nat) : Int), data)) ∧
      stringLength (map d₀) offset (255 - offset) = c.s + 1) ∨
    ∃ c', stringByte c data = pure (.inr c') ∧ c'.s = c.s + 1 ∧ Reading map d₀ offset size c' d' := by
  have hoff := hc.off
  have hcnt := hc.cnt
  have hsize := hf.size
  have hlast := hc.bytes hf c.s (by omega)
  unfold stringByte
  rw [addInt_of_le (by omega) (by omega), pure_bind, Buf.load_of_lt (by omega), pure_bind]
  by_cases hnul : data.bytes c.s = 0
  · rw [if_pos hnul, hcnt]
    exact .inl ⟨rfl, (isString_stringLength _ _ _).unique
      (.inr ⟨c.s, by omega, rfl, hlast ▸ hnul, hc.nonzero⟩)⟩
  · rw [if_neg hnul, addInt_of_le (by omega) (by omega), pure_bind]
    exact .inr ⟨_, rfl, rfl, hc.next hmore hf hnul⟩

end Reading

theorem ends_stringRound (hr : ReadsMap h xfer map spill) {d₀ : D} {offset size : Nat}
    (hroom : ∀ k < stringLength (map d₀) offset (255 - offset), k + spill (offset + k) 1 ≤ size)
    (c : StringCursor) (d : D) (hc : Reading map d₀ offset size c d) :
    Prog.Ends h (stringRound xfer c) d fun r d' =>
      Sum.elim (fun res => ReadFrom (map d₀) offset (stringLength (map d₀) offset (255 - offset)) res)
        (fun c' => Reading map d₀ offset size c' d' ∧ 255 - c'.s < 255 - c.s) r := by
  have hle := hc.le
  have hsize := hc.size
  by_cases hmore : offset + c.s < 255
  · have hspill := hroom c.s (lt_stringLength (by omega) hc.nonzero)
    have hone := hr.le_spill (offset + c.s) 1
    rw [hc.stringRound_lt hmore]
    refine (hr.read (offset + c.s) c.buffer c.s 1 d (by omega) (by unfold ecMemmapSize; omega)
      (by omega)).bind ?_
    intro data d' hf
    obtain ⟨hbyte, hend⟩ | ⟨c', hbyte, hs, hnext⟩ := hc.stringByte_cases hmore hf (by omega)
    · rw [hbyte, hend]
      exact .pure ⟨rfl, hc.bytes hf⟩
    · rw [hbyte]
      exact .pure ⟨hnext, by omega⟩
  · obtain ⟨hround, hend⟩ := hc.stringRound_end xfer hmore
    rw [hround, hend]
    exact .pure ⟨rfl, hc.read⟩

theorem post_stringRound (hr : ReadsMap h xfer map spill) {d₀ : D} {offset size : Nat}
    (c : StringCursor) (d : D) (hc : Reading map d₀ offset size c d)
    (hroom : ∀ k < c.s, k + spill (offset + k) 1 ≤ size) :
    Prog.Post h (stringRound xfer c) d fun r d' =>
      Sum.elim
        (fun _ => ∀ k < stringLength (map d₀) offset (255 - offset), k + spill (offset + k) 1 ≤ size)
        (fun c' => Reading map d₀ offset size c' d' ∧ ∀ k < c'.s, k + spill (offset + k) 1 ≤ size) r := by
  have hsize := hc.size
  by_cases hmore : offset + c.s < 255
  · have hone := hr.le_spill (offset + c.s) 1
    rw [hc.stringRound_lt hmore]
    refine (hr.post_read (offset + c.s) c.buffer c.s 1 d (by omega)
      (by unfold ecMemmapSize; omega)).bind ?_
    rintro data d' ⟨hlast, hf⟩
    have hmoreRoom : ∀ k < c.s + 1, k + spill (offset + k) 1 ≤ size := by
      intro k hk
      by_cases hks : k = c.s
      · rw [hks]
        omega
      · exact hroom k (by omega)
    obtain ⟨hbyte, hend⟩ | ⟨c', hbyte, hs, hnext⟩ := hc.stringByte_cases hmore hf (by omega)
    · rw [hbyte, hend]
      exact .ret hmoreRoom
    · rw [hbyte]
      exact .ret ⟨hnext, hs ▸ hmoreRoom⟩
  · obtain ⟨hround, hend⟩ := hc.stringRound_end xfer hmore
    rw [hround, hend]
    exact .ret hroom

section

variable (xfer) {offset length : UInt64} (buffer : Buf)

theorem guard_of_le (hsum : offset.toNat + length.toNat ≤ ecMemmapSize) :
    ¬ (offset + length).toNat > ecMemmapSize := by
  unfold ecMemmapSize at hsum ⊢
  rw [UInt64.toNat_add, Nat.mod_eq_of_lt (by omega)]
  omega

theorem ecReadMemoryWith_bytes (hsum : offset.toNat + length.toNat ≤ ecMemmapSize)
    (hpos : 0 < length.toNat) :
    ecReadMemoryWith xfer offset buffer length =
      xfer .read (UInt16.ofInt (0x100 + offset.toNat : Nat)) buffer 0 (UInt16.ofNat length.toNat) >>=
        fun data => pure ((length.toNat : Int), data) := by
  have hguard := guard_of_le hsum
  have hsize : length.toUInt16 = UInt16.ofNat length.toNat := rfl
  have hlen : length > 0 := UInt64.lt_iff_toNat_lt.2 hpos
  unfold ecMemmapSize at hsum
  unfold ecReadMemoryWith
  rw [if_neg hguard, if_pos hlen, toInt_of_lt (by omega), addInt_of_le (by omega) (by omega), pure_bind,
    toInt_of_lt (by omega), hsize]
  rfl

theorem ecReadMemoryWith_string (hsum : offset.toNat + length.toNat ≤ ecMemmapSize)
    (hzero : ¬ 0 < length.toNat) :
    ecReadMemoryWith xfer offset buffer length =
      Prog.loop (stringRound xfer) 256 ⟨(offset.toNat : Int), 0, 0, buffer⟩ := by
  have hguard := guard_of_le hsum
  have hlen : ¬ length > 0 := fun hlt => hzero (UInt64.lt_iff_toNat_lt.1 hlt)
  unfold ecMemmapSize at hsum
  unfold ecReadMemoryWith
  rw [if_neg hguard, if_neg hlen, toInt_of_lt (by omega)]

end

theorem reading_start {offset : Nat} (hle : offset ≤ 255) (buffer : Buf) (d : D) :
    Reading map d offset buffer.size ⟨(offset : Int), 0, 0, buffer⟩ d where
  off := rfl
  cnt := rfl
  le := hle
  size := rfl
  same := rfl
  read := by simp
  nonzero := by simp

theorem ends_readMemory (hr : ReadsMap h xfer map spill) (offset length : UInt64) (buffer : Buf) (d : D)
    (hsum : offset.toNat + length.toNat ≤ ecMemmapSize)
    (hroom : HasRoom spill (map d) offset.toNat length.toNat buffer.size) :
    Prog.Ends h (ecReadMemoryWith xfer offset buffer length) d fun res _ =>
      ReadFrom (map d) offset.toNat (readCount (map d) offset.toNat length.toNat) res := by
  by_cases hpos : 0 < length.toNat
  · rw [HasRoom, if_pos hpos] at hroom
    rw [ecReadMemoryWith_bytes xfer buffer hsum hpos, readCount, if_pos hpos]
    refine (hr.read offset.toNat buffer 0 length.toNat d hpos hsum (by omega)).bind ?_
    intro data d' hf
    refine .pure ⟨rfl, fun i hi => ?_⟩
    have hbyte := hf.read i hi
    rwa [Nat.zero_add] at hbyte
  · rw [HasRoom, if_neg hpos, readCount, if_neg hpos] at hroom
    rw [ecReadMemoryWith_string xfer buffer hsum hpos, readCount, if_neg hpos]
    unfold ecMemmapSize at hsum hroom ⊢
    apply Prog.Ends.loop (I := Reading map d offset.toNat buffer.size) (μ := fun c => 255 - c.s)
    · exact fun c d' hc => hr.ends_stringRound hroom c d' hc
    · exact reading_start (by omega) buffer d
    · simp

theorem post_readMemory (hr : ReadsMap h xfer map spill) (offset length : UInt64) (buffer : Buf) (d : D)
    (hsum : offset.toNat + length.toNat ≤ ecMemmapSize) :
    Prog.Post h (ecReadMemoryWith xfer offset buffer length) d
      fun _ _ => HasRoom spill (map d) offset.toNat length.toNat buffer.size := by
  by_cases hpos : 0 < length.toNat
  · rw [HasRoom, if_pos hpos, ecReadMemoryWith_bytes xfer buffer hsum hpos]
    refine (hr.room offset.toNat buffer 0 length.toNat d hpos hsum).bind ?_
    intro data d' hroom
    exact .ret (by omega)
  · rw [HasRoom, if_neg hpos, readCount, if_neg hpos, ecReadMemoryWith_string xfer buffer hsum hpos]
    unfold ecMemmapSize at hsum ⊢
    refine Prog.Post.loop (I := fun c d' => Reading map d offset.toNat buffer.size c d' ∧
      ∀ k < c.s, k + spill (offset.toNat + k) 1 ≤ buffer.size) ?_ 256 _ d ?_
    · exact fun c d' hc => hr.post_stringRound c d' hc.1 hc.2
    · exact ⟨reading_start (by omega) buffer d, by simp⟩

end ReadsMap

/-! ### Both libraries -/

theorem ofInt_natCast {n : Nat} (h : n < 65536) : UInt16.ofInt n = UInt16.ofNat n := by
  have hmod : ((n : Int) % 2 ^ 16).toNat = n := by omega
  rw [UInt16.ofInt, hmod]

theorem Mec.reach_memmap (a n : Nat) : reach (0x100 + a) n = reach a n := by
  unfold reach pad
  omega

theorem Mec.readsMap (ec : Ec σ) :
    ReadsMap (emi ec) ecTransfer (fun d => d.mem.drop 0x100) reach where
  read a data off n d hn hfit hroom := by
    unfold ecMemmapSize at hfit
    have hle : n ≤ reach a n := Nat.le_max_left n (pad a)
    rw [ofInt_natCast (by omega)]
    apply (ends_ecTransfer ec .read (0x100 + a) off n data d (by omega) (by rwa [reach_memmap])).mono
    intro data' d' h
    rw [reach_memmap] at h
    obtain ⟨rfl, hbus⟩ := Prod.mk.inj h
    have hmem : d'.mem = d.mem := by
      rw [hbus]
      rfl
    refine ⟨by rw [hmem], rfl, fun i hi => ?_, fun j hj => Mem.copy_out _ _ (.inl hj)⟩
    simp only
    rw [Mem.copy_in _ _ (by omega), Mem.drop_apply, Mem.drop_apply, Nat.add_assoc]
  room a data off n d hn hfit := by
    unfold ecMemmapSize at hfit
    have hle : n ≤ reach a n := Nat.le_max_left n (pad a)
    have hinside := post_reach ec .read (0x100 + a) off n data d (by omega)
    rw [reach_memmap] at hinside
    rw [ofInt_natCast (by omega)]
    exact hinside.mono fun _ _ h => h (by omega)
  le_spill a n := Nat.le_max_left n (pad a)

theorem Azalea.portOf_memmap : ∀ a < 255, portOf (UInt16.ofNat (0x100 + a)) = 0xE00 + a := by
  decide +kernel

theorem Azalea.readsMap (ec : Ec σ) :
    ReadsMap (npcx ec) ecTransfer (fun b => b.mem.drop 0xE00) (fun _ n => n) where
  read a data off n b hn hfit hroom := by
    unfold ecMemmapSize at hfit
    rw [ofInt_natCast (by omega)]
    apply (ends_ecTransfer ec .read _ off n data b (by omega) hroom).mono
    intro data' b' h
    rw [portOf_memmap a (by omega)] at h
    obtain ⟨rfl, rfl⟩ := Prod.mk.inj h
    refine ⟨rfl, rfl, fun i hi => ?_, fun j hj => Mem.copy_out _ _ (.inl hj)⟩
    simp only
    rw [Mem.copy_in _ _ hi, Mem.drop_apply, Mem.drop_apply, Nat.add_assoc]
  room a data off n b hn hfit := by
    unfold ecMemmapSize at hfit
    have hinside := holds_ecTransfer .read (UInt16.ofInt (0x100 + a : Nat)) data off (UInt16.ofNat n)
    rw [UInt16.toNat_ofNat', Nat.mod_eq_of_lt (by omega)] at hinside
    exact (Prog.Post.of_holds hinside).mono fun _ _ h => h hn
  le_spill _ n := Nat.le_refl n

/-- The memory map of the EC behind the Microchip interface is that of the port space. -/
def SameMap (d : Emi σ) (b : Bus τ) : Prop := ∀ i < 0x100, d.mem (0x100 + i) = b.mem (0xE00 + i)

theorem stringLength_congr {m m' : Mem} {off n : Nat} (h : ∀ i < n, m (off + i) = m' (off + i)) :
    stringLength m off n = stringLength m' off n := by
  apply (isString_stringLength m off n).unique
  obtain ⟨hc, hall⟩ | ⟨k, hk, hc, hzero, hall⟩ := isString_stringLength m' off n
  · exact .inl ⟨hc, fun i hi => by rw [h i hi]; exact hall i hi⟩
  · exact .inr ⟨k, hk, hc, by rw [h k hk, hzero], fun i hi => by rw [h i (by omega)]; exact hall i hi⟩

theorem readCount_congr {m m' : Mem} (h : ∀ i < 0x100, m i = m' i) (offset length : Nat) :
    readCount m offset length = readCount m' offset length := by
  unfold readCount ecMemmapSize
  rw [stringLength_congr fun i hi => h (offset + i) (by omega)]

theorem readCount_le {m : Mem} {offset length : Nat} (h : offset + length ≤ 255) :
    offset + readCount m offset length ≤ 255 := by
  unfold readCount ecMemmapSize
  split
  · exact h
  · obtain ⟨hc, -⟩ | ⟨k, hk, hc, -⟩ := isString_stringLength m offset (255 - offset)
    · omega
    · omega

/-- A transfer that writes what it is asked for has room exactly if the result has. -/
theorem hasRoom_exact_iff (m : Mem) (offset length size : Nat) :
    HasRoom (fun _ n => n) m offset length size ↔ readCount m offset length ≤ size := by
  unfold HasRoom
  split
  · next hpos => rw [readCount, if_pos hpos]
  · constructor
    · intro h
      rcases Nat.eq_zero_or_pos (readCount m offset length) with hzero | hpos
      · omega
      · have hlast := h (readCount m offset length - 1) (by omega)
        simp only at hlast
        omega
    · intro h k hk
      simp only
      omega

/-- Two bytes more than the result are room enough for the Microchip transfer. -/
theorem hasRoom_reach_of_le {m : Mem} {offset length size : Nat}
    (h : readCount m offset length + 2 ≤ size) : HasRoom Mec.reach m offset length size := by
  unfold HasRoom Mec.reach Mec.pad
  split
  · next hpos =>
    rw [readCount, if_pos hpos] at h
    omega
  · intro k hk
    omega

/-- Both calls return the same count, and the same bytes: the bytes asked for, or a string. -/
def ReadsAlike (ec : Ec σ) (ec' : Ec τ) (offset length : UInt64) (d : Emi σ) (b : Bus τ)
    (buffer buffer' : Buf) : Prop :=
  ∃ (cnt : Nat) (data data' : Buf) (d' : Emi σ) (b' : Bus τ),
    (Mec.ecReadMemoryMecLpc offset buffer length).exec (emi ec) d = (.ok (cnt, data), d') ∧
    (Azalea.ecReadMemory offset buffer' length).exec (npcx ec') b = (.ok (cnt, data'), b') ∧
    (0 < length.toNat → cnt = length.toNat) ∧
    (length.toNat = 0 → IsString (d.mem.drop 0x100) offset.toNat (255 - offset.toNat) cnt) ∧
    ∀ i < cnt, data.bytes i = d.mem (0x100 + (offset.toNat + i)) ∧
      data'.bytes i = d.mem (0x100 + (offset.toNat + i))

theorem readsAlike_of_room (ec : Ec σ) (ec' : Ec τ) {offset length : UInt64}
    (hsum : offset.toNat + length.toNat ≤ 255) {d : Emi σ} {b : Bus τ} (hsame : SameMap d b)
    {buffer buffer' : Buf}
    (hroom : HasRoom Mec.reach (d.mem.drop 0x100) offset.toNat length.toNat buffer.size)
    (hroom' : readCount (d.mem.drop 0x100) offset.toNat length.toNat ≤ buffer'.size) :
    ReadsAlike ec ec' offset length d b buffer buffer' := by
  have hmap : ∀ i < 0x100, d.mem.drop 0x100 i = b.mem.drop 0xE00 i := hsame
  have hcount := readCount_congr hmap offset.toNat length.toNat
  have hle := readCount_le (m := d.mem.drop 0x100) hsum
  rw [hcount, ← hasRoom_exact_iff] at hroom'
  obtain ⟨⟨rv, data⟩, d', hexec, hrv, hbytes⟩ :=
    (Mec.readsMap ec).ends_readMemory offset length buffer d hsum hroom
  obtain ⟨⟨rv', data'⟩, b', hexec', hrv', hbytes'⟩ :=
    (Azalea.readsMap ec').ends_readMemory offset length buffer' b hsum hroom'
  simp only at hrv hbytes hrv' hbytes'
  rw [← hcount] at hrv' hbytes'
  refine ⟨readCount (d.mem.drop 0x100) offset.toNat length.toNat, data, data', d', b', hrv ▸ hexec,
    hrv' ▸ hexec', fun hpos => if_pos hpos, ?_, ?_⟩
  · intro hzero
    rw [readCount, if_neg (by omega)]
    exact isString_stringLength _ _ _
  · intro i hi
    refine ⟨hbytes i hi, (hbytes' i hi).trans ?_⟩
    exact (hmap (offset.toNat + i) (by omega)).symm

theorem ReadsAlike.room {ec : Ec σ} {ec' : Ec τ} {offset length : UInt64} {d : Emi σ} {b : Bus τ}
    {buffer buffer' : Buf} (hsum : offset.toNat + length.toNat ≤ 255)
    (h : ReadsAlike ec ec' offset length d b buffer buffer') :
    HasRoom Mec.reach (d.mem.drop 0x100) offset.toNat length.toNat buffer.size := by
  obtain ⟨cnt, data, data', d', b', hexec, -⟩ := h
  exact (Mec.readsMap ec).post_readMemory offset length buffer d hsum _ _ hexec

/-- **Both libraries read the memory map alike exactly if the buffers hold the result and the
Microchip buffer holds all that its transfers write.** -/
theorem readMemory_agree_iff (ec : Ec σ) (ec' : Ec τ) (offset length : UInt64)
    (hsum : offset.toNat + length.toNat ≤ 255) (d : Emi σ) (b : Bus τ) (hsame : SameMap d b)
    (buffer buffer' : Buf) :
    ReadsAlike ec ec' offset length d b buffer buffer' ↔
      HasRoom Mec.reach (d.mem.drop 0x100) offset.toNat length.toNat buffer.size ∧
        readCount (d.mem.drop 0x100) offset.toNat length.toNat ≤ buffer'.size := by
  have hmap : ∀ i < 0x100, d.mem.drop 0x100 i = b.mem.drop 0xE00 i := hsame
  constructor
  · intro h
    refine ⟨h.room hsum, ?_⟩
    obtain ⟨cnt, data, data', d', b', -, hexec', -⟩ := h
    rw [readCount_congr hmap, ← hasRoom_exact_iff]
    exact (Azalea.readsMap ec').post_readMemory offset length buffer' b hsum _ _ hexec'
  · rintro ⟨hroom, hroom'⟩
    exact readsAlike_of_room ec ec' hsum hsame hroom hroom'

/-- Memory with one letter in it. -/
def letterAt (a : Nat) : Mem := fun i => if i = a then 65 else 0

def letterDevice : Emi Unit := ⟨⟨(), letterAt 0x121, []⟩, 0⟩

def letterPorts : Bus Unit := ⟨(), letterAt 0xE21, []⟩

theorem sameMap_letter : SameMap letterDevice letterPorts := by
  intro i _
  simp only [letterDevice, letterPorts, letterAt]
  by_cases hi : i = 0x21
  · rw [if_pos (by omega), if_pos (by omega)]
  · rw [if_neg (by omega), if_neg (by omega)]

/-- A string of one letter at 0x21, read with two bytes to spare. -/
theorem readMemory_agree_letter :
    ReadsAlike idleEc idleEc 0x21 0 letterDevice letterPorts ⟨fun _ => 0xEE, 4⟩ ⟨fun _ => 0xEE, 4⟩ :=
  (readMemory_agree_iff idleEc idleEc 0x21 0 (by decide) letterDevice letterPorts sameMap_letter
    ⟨fun _ => 0xEE, 4⟩ ⟨fun _ => 0xEE, 4⟩).2 ⟨hasRoom_reach_of_le (by decide), by decide⟩

/-- The letter alone, read into one byte: the Microchip transfer writes the two after it too. -/
theorem readMemory_overruns_one :
    (0x21 : UInt64).toNat + (1 : UInt64).toNat ≤ 255 ∧ SameMap letterDevice letterPorts ∧
      readCount (letterDevice.mem.drop 0x100) (0x21 : UInt64).toNat (1 : UInt64).toNat ≤ 1 ∧
      ¬ ReadsAlike idleEc idleEc 0x21 1 letterDevice letterPorts ⟨fun _ => 0xEE, 1⟩ ⟨fun _ => 0xEE, 1⟩ := by
  refine ⟨by decide, sameMap_letter, by decide, fun h => ?_⟩
  have hroom : HasRoom Mec.reach (letterDevice.mem.drop 0x100) (0x21 : UInt64).toNat (1 : UInt64).toNat 1 :=
    h.room (by decide)
  exact absurd hroom (by decide)

end FrameworkHacks.Transport
