import FrameworkHacks.ECTool.FlashCommands

/-!
# The chunks of a write

`flash_write` lays out each chunk behind its parameters in a buffer of one packet's size, and takes
chunks of as many whole ideal writes as fit a packet, parameters not counted. `flashWrite_safe_iff`
says for which ideal sizes that works. What the chunks are then is in `ECTool.Partition`.
-/

namespace FrameworkHacks.ECTool

open Effects

/-! ### Chunks -/

def infoRequest : HostCommand := ⟨ecCmdFlashInfo, 1, [], sizeofFlashInfo1⟩

/-- The size of the chunk at `i`. -/
def writeChunk (size : Int) (step i : Nat) : Nat := toUint32 (min (size - i) step)

/-- The command for the chunk at `i`: its offset and size, and its bytes. -/
def writeCommand (offset size : Int) (step : Nat) (source : Mem) (i : Nat) : HostCommand :=
  ⟨ecCmdFlashWrite, 1, offsetSize (toUint32 (offset + i)) (writeChunk size step i) ++
    (source.drop i).toList (writeChunk size step i), 0⟩

theorem writeChunk_eq {size : Int} {i : Nat} (step : Nat) (hlt : i < size) (hsize : size < 2147483648) :
    (writeChunk size step i : Int) = min (size - i) step := by
  simp only [writeChunk, toUint32]
  omega

theorem writeRequest_toList (commandBuffer : Mem) (offset size : Nat) (source : Mem) :
    (writeRequest commandBuffer offset size source).toList (sizeofFlashWrite + size) =
      offsetSize offset size ++ source.toList size := by
  have hlength : (offsetSize offset size).length = 8 := rfl
  have hheader : (writeRequest commandBuffer offset size source).toList 8 = offsetSize offset size :=
    (Mem.toList_congr fun i hi => writeRequest_header _ _ _ _ hi).trans (Mem.toList_ofList _)
  have hsource : ((writeRequest commandBuffer offset size source).drop 8).toList size =
      source.toList size :=
    Mem.toList_congr fun i hi => Mem.copy_in _ source hi
  rw [sizeofFlashWrite, Mem.toList_add, hheader, hsource]

/-! ### One round -/

section Round

variable {offset size : Int} {step start i : Nat} {buffer commandBuffer : Buf}

/-- The chunk at `i` can be sent: its offset is an `int`, and it fits behind its parameters. -/
def Sendable (offset size : Int) (step i : Nat) : Prop :=
  offset + i ≤ 2147483647 ∧ sizeofFlashWrite + writeChunk size step i ≤ gEcMaxRequest

theorem writeRound_eq (hoffset : -2147483648 ≤ offset) (hsize : size < 2147483648)
    (hbuffer : start + size ≤ buffer.size) (hcommand : commandBuffer.size = gEcMaxRequest)
    (hlt : i < size) (h : Sendable offset size step i) :
    ∃ commandBuffer' : Buf, commandBuffer'.size = gEcMaxRequest ∧
      flashWriteRound offset size step buffer start ((i : Int), commandBuffer) =
        Prog.perform (E := Services) (.sendCommand (writeCommand offset size step
          (buffer.bytes.drop start) i)) >>= fun r =>
          if r.rv < 0 then pure (.inl r.rv)
          else addInt i step >>= fun j => pure (.inr (j, commandBuffer')) := by
  have hchunk := writeChunk_eq step hlt hsize
  have hfit := h.2
  have hn : toUint32 (min (size - i) step) = writeChunk size step i := rfl
  have hsource : (buffer.bytes.drop start).drop i = buffer.bytes.drop (start + i) :=
    funext fun j => by simp [Nat.add_assoc]
  rw [flashWriteRound, if_pos hlt, addInt_of_le (by omega) h.1, pure_bind]
  simp only [hn, Int.toNat_natCast]
  rw [Buf.copyIn_of_le _ (by rw [hcommand]; omega), pure_bind, Buf.copyOut_of_le (by omega), pure_bind,
    Buf.copyIn_of_le _ (by simp only [hcommand]; exact hfit), pure_bind]
  refine ⟨⟨writeRequest commandBuffer.bytes (toUint32 (offset + i)) (writeChunk size step i)
    (buffer.bytes.drop (start + i)), commandBuffer.size⟩, hcommand, ?_⟩
  rw [writeCommand, hsource, ← writeRequest_toList commandBuffer.bytes]
  rfl

theorem writeRound_fault (hoffset : -2147483648 ≤ offset) (hsize : size < 2147483648)
    (hbuffer : start + size ≤ buffer.size) (hcommand : commandBuffer.size = gEcMaxRequest)
    (hlt : i < size) (h : ¬Sendable offset size step i) :
    flashWriteRound offset size step buffer start ((i : Int), commandBuffer) = .fault := by
  have hchunk := writeChunk_eq step hlt hsize
  have hn : toUint32 (min (size - i) step) = writeChunk size step i := rfl
  rw [flashWriteRound, if_pos hlt]
  by_cases haddress : offset + i ≤ 2147483647
  · have hbig : ¬(sizeofFlashWrite + writeChunk size step i ≤ gEcMaxRequest) := fun hfit => h ⟨haddress, hfit⟩
    rw [addInt_of_le (by omega) haddress, pure_bind]
    simp only [hn, Int.toNat_natCast]
    rw [Buf.copyIn_of_le _ (by rw [hcommand]; decide), pure_bind, Buf.copyOut_of_le (by omega), pure_bind]
    rw [Buf.copyIn, if_neg (by simp only [hcommand]; exact hbig)]
    rfl
  · rw [addInt, if_neg (by omega)]
    rfl

/-- The counter after the chunk at `i` is an `int`. -/
def Countable (step i : Nat) : Prop := i + step ≤ 2147483647

theorem addInt_countable (h : Countable step i) :
    (addInt (i : Int) step : Prog Services Int) = pure ((i + step : Nat) : Int) := by
  unfold Countable at h
  rw [addInt_of_le (by omega) (by omega), Int.natCast_add]

theorem addInt_uncountable (h : ¬Countable step i) : (addInt (i : Int) step : Prog Services Int) = .fault := by
  unfold Countable at h
  rw [addInt, if_neg (by omega)]

end Round

/-! ### The loop -/

section Loop

variable {offset size : Int} {step start : Nat} {buffer : Buf}

/-- The chunk with number `k` can be sent, and the counter goes on after it. -/
def ChunkOk (offset size : Int) (step k : Nat) : Prop :=
  Sendable offset size step (k * step) ∧ Countable step (k * step)

/-- The state when the chunk with number `k` is next. -/
def AtChunk (step k : Nat) (s : Int × Buf) : Prop :=
  s.1 = (k * step : Nat) ∧ s.2.size = gEcMaxRequest

theorem writeRound_holds {H : Halt → Prop} (hoffset : -2147483648 ≤ offset) (hsize : size < 2147483648)
    (hbuffer : start + size ≤ buffer.size) {k : Nat} {s : Int × Buf} (hs : AtChunk step k s)
    (hok : (k * step : Nat) < size → ChunkOk offset size step k) :
    Prog.Holds H (fun _ => True) (Sends fun c => c.outdata.length ≤ gEcMaxRequest)
      (Sum.elim (fun _ => True) fun s' => s.1 < size ∧ AtChunk step (k + 1) s')
      (flashWriteRound offset size step buffer start s) := by
  obtain ⟨i, commandBuffer⟩ := s
  obtain ⟨rfl, hcommand⟩ := hs
  by_cases hlt : ((k * step : Nat) : Int) < size
  · obtain ⟨hsend, hcount⟩ := hok hlt
    obtain ⟨commandBuffer', hcommand', hround⟩ :=
      writeRound_eq hoffset hsize hbuffer hcommand hlt hsend
    rw [hround]
    refine Prog.Holds.perform_bind fun r => ⟨sends_sendCommand ?_, fun _ => ?_⟩
    · have hfit := hsend.2
      simp only [writeCommand, List.length_append, Mem.toList_length, offsetSize]
      exact hfit
    split
    · trivial
    · rw [addInt_countable hcount, pure_bind]
      exact ⟨hlt, by simp [Nat.succ_mul], hcommand'⟩
  · rw [flashWriteRound, if_neg hlt]
    trivial

/-- While the chunks are in order, the loop sends what fits a packet and stops for want of rounds
only. -/
theorem writeLoop_holds (hoffset : -2147483648 ≤ offset) (hsize : size < 2147483648)
    (hbuffer : start + size ≤ buffer.size)
    (hok : ∀ k : Nat, (k * step : Nat) < size → ChunkOk offset size step k) (fuel : Nat)
    {s : Int × Buf} (hs : AtChunk step 0 s) :
    Prog.Holds (· = .fuel) (fun _ => True) (Sends fun c => c.outdata.length ≤ gEcMaxRequest)
      (fun _ => True) (Prog.loop (flashWriteRound offset size step buffer start) fuel s) := by
  refine Prog.Holds.loop (H := (· = .fuel)) (I := fun s => ∃ k, AtChunk step k s) rfl ?_ fuel s ⟨0, hs⟩
  rintro s ⟨k, hs⟩
  refine (writeRound_holds hoffset hsize hbuffer hs (hok k)).post ?_
  rintro (rv | s') h
  · trivial
  · exact ⟨k + 1, h.2⟩

theorem writeLoop_ends (hoffset : -2147483648 ≤ offset) (hsize : size < 2147483648)
    (hbuffer : start + size ≤ buffer.size) (hstep : 0 < size → 0 < step)
    (hok : ∀ k : Nat, (k * step : Nat) < size → ChunkOk offset size step k) {fuel : Nat}
    (hfuel : size.toNat < fuel) {s : Int × Buf} (hs : AtChunk step 0 s) :
    Prog.Holds (fun _ => False) (fun _ => True) (Sends fun c => c.outdata.length ≤ gEcMaxRequest)
      (fun _ => True) (Prog.loop (flashWriteRound offset size step buffer start) fuel s) := by
  refine Prog.Holds.loop_lt (I := fun s => ∃ k, AtChunk step k s) (fun s => (size - s.1).toNat) ?_ fuel s
    ⟨0, hs⟩ ?_
  · rintro s ⟨k, hs⟩
    refine (writeRound_holds hoffset hsize hbuffer hs (hok k)).post ?_
    rintro (rv | s') ⟨hlt, hs'⟩
    · trivial
    · refine ⟨⟨k + 1, hs'⟩, ?_⟩
      have hnext : s'.1 = s.1 + step := by rw [hs'.1, hs.1, Nat.succ_mul, Int.natCast_add]
      have hnow : 0 ≤ s.1 := by rw [hs.1]; omega
      have := hstep (by omega)
      omega
  · have hzero : s.1 = 0 := by rw [hs.1, Nat.zero_mul]; rfl
    omega

theorem run_writeChunk (hoffset : -2147483648 ≤ offset) (hsize : size < 2147483648)
    (hbuffer : start + size ≤ buffer.size) {k fuel : Nat} (hlt : (k * step : Nat) < size)
    (hok : ChunkOk offset size step k) {s : Int × Buf} (hs : AtChunk step k s) {o : Outcome Int}
    (hrest : ∀ s', AtChunk step (k + 1) s' →
      ∃ t, Run (Prog.loop (flashWriteRound offset size step buffer start) fuel s') t o) :
    ∃ t, Run (Prog.loop (flashWriteRound offset size step buffer start) (fuel + 1) s) t o := by
  obtain ⟨i, commandBuffer⟩ := s
  obtain ⟨rfl, hcommand⟩ := hs
  obtain ⟨commandBuffer', hcommand', hround⟩ := writeRound_eq hoffset hsize hbuffer hcommand hlt hok.1
  obtain ⟨t, ht⟩ := hrest (((k * step + step : Nat) : Int), commandBuffer') ⟨by rw [Nat.succ_mul], hcommand'⟩
  refine ⟨replied (writeCommand offset size step (buffer.bytes.drop start) (k * step)) ⟨0, []⟩ :: t, ?_⟩
  rw [Prog.loop_succ, hround, bind_assoc]
  apply Run.perform_bind
  rw [if_neg (by decide), addInt_countable hok.2, pure_bind, pure_bind]
  exact ht

theorem run_badChunk (hoffset : -2147483648 ≤ offset) (hsize : size < 2147483648)
    (hbuffer : start + size ≤ buffer.size) {k : Nat} (hlt : (k * step : Nat) < size)
    (hbad : ¬ChunkOk offset size step k) {s : Int × Buf} (hs : AtChunk step k s) (fuel : Nat) :
    ∃ t, Run (Prog.loop (flashWriteRound offset size step buffer start) (fuel + 1) s) t
      (.halted .fault) := by
  obtain ⟨i, commandBuffer⟩ := s
  obtain ⟨rfl, hcommand⟩ := hs
  rw [Prog.loop_succ]
  by_cases hsend : Sendable offset size step (k * step)
  · have hcount : ¬Countable step (k * step) := fun h => hbad ⟨hsend, h⟩
    obtain ⟨commandBuffer', hcommand', hround⟩ := writeRound_eq hoffset hsize hbuffer hcommand hlt hsend
    refine ⟨[replied (writeCommand offset size step (buffer.bytes.drop start) (k * step)) ⟨0, []⟩], ?_⟩
    rw [hround, bind_assoc]
    apply Run.perform_bind
    rw [if_neg (by decide), addInt_uncountable hcount]
    exact .halt _
  · rw [writeRound_fault hoffset hsize hbuffer hcommand hlt hsend]
    exact ⟨[], .halt _⟩

/-- An EC that accepts every chunk lets the loop run into one that is not in order. -/
theorem writeLoop_faults (hoffset : -2147483648 ≤ offset) (hsize : size < 2147483648)
    (hbuffer : start + size ≤ buffer.size) {n k : Nat} (hlt : ((k + n) * step : Nat) < size)
    (hbad : ¬ChunkOk offset size step (k + n)) {s : Int × Buf} (hs : AtChunk step k s) (fuel : Nat) :
    ∃ t, Run (Prog.loop (flashWriteRound offset size step buffer start) (n + fuel + 1) s) t
      (.halted .fault) := by
  induction n generalizing k s with
  | zero => exact run_badChunk hoffset hsize hbuffer hlt hbad hs _
  | succ n ih =>
    rw [Nat.add_right_comm n 1 fuel]
    have hnow : ((k * step : Nat) : Int) < size := by
      have hle : k * step ≤ (k + (n + 1)) * step := Nat.mul_le_mul_right step (by omega)
      omega
    by_cases hok : ChunkOk offset size step k
    · apply run_writeChunk hoffset hsize hbuffer hnow hok hs
      intro s' hs'
      have hk : k + (n + 1) = k + 1 + n := by omega
      rw [hk] at hlt hbad
      exact ih hlt hbad hs'
    · exact run_badChunk hoffset hsize hbuffer hnow hok hs _

/-- Without a step it lets the loop go on for ever. -/
theorem writeLoop_spins (hoffset : -2147483648 ≤ offset) (hsize : size < 2147483648)
    (hbuffer : start + size ≤ buffer.size) (hpos : 0 < size) (hok : ∀ k, ChunkOk offset size 0 k)
    (fuel : Nat) {k : Nat} {s : Int × Buf} (hs : AtChunk 0 k s) :
    ∃ t, Run (Prog.loop (flashWriteRound offset size (0 : Nat) buffer start) fuel s) t
      (.halted .fuel) := by
  induction fuel generalizing k s with
  | zero => exact ⟨[], .halt _⟩
  | succ fuel ih =>
    exact run_writeChunk hoffset hsize hbuffer (by simpa using hpos) (hok k) hs fun s' hs' => ih hs'

end Loop

/-! ### Geometries -/

theorem writeStep_eq_zero {w : Nat} (h : gEcMaxRequest < w) : writeStep w = 0 := by
  rw [writeStep, Nat.div_eq_of_lt h, Nat.zero_mul]

theorem writeStep_pos {w : Nat} (h₀ : w ≠ 0) (h : w ≤ gEcMaxRequest) : 0 < writeStep w :=
  Nat.mul_pos (Nat.div_pos h (by omega)) (by omega)

/-- Where the last chunk begins. -/
def lastChunk (size step : Nat) : Nat := (size - 1) / step * step

theorem lastChunk_lt {size step : Nat} (h : 0 < size) : lastChunk size step < size := by
  have hle : lastChunk size step ≤ size - 1 := Nat.div_mul_le_self _ _
  omega

theorem le_lastChunk {size step k : Nat} (hstep : 0 < step) (h : k * step < size) :
    k * step ≤ lastChunk size step :=
  Nat.mul_le_mul_right step ((Nat.le_div_iff_mul_le hstep).2 (by omega))

/-- An ideal write size that `flash_write` can work with: not 0, and, if there is anything to write, at
most a packet, with no chunk so large that its parameters do not fit, and no offset or counter that
leaves the range of `int`. -/
def GoodGeometry (w : Nat) (offset : Int) (size : Nat) : Prop :=
  w ≠ 0 ∧ (size = 0 ∨ w ≤ gEcMaxRequest ∧ (writeStep w ≤ 240 ∨ size ≤ 240) ∧
    offset + lastChunk size (writeStep w) ≤ 2147483647 ∧
    lastChunk size (writeStep w) + writeStep w ≤ 2147483647)

theorem chunkOk_iff {offset : Int} {size step : Nat} (hsize : size < 2147483648) (hpos : 0 < size)
    (hstep : 0 < step) :
    (∀ k, ((k * step : Nat) : Int) < size → ChunkOk offset size step k) ↔
      (step ≤ 240 ∨ size ≤ 240) ∧ offset + lastChunk size step ≤ 2147483647 ∧
        lastChunk size step + step ≤ 2147483647 := by
  have hmax := gEcMaxRequest_eq
  constructor
  · intro hok
    obtain ⟨hfirst, -⟩ := hok 0 (by omega)
    obtain ⟨hlast, hcount⟩ := hok ((size - 1) / step) (by exact_mod_cast lastChunk_lt hpos)
    have hstart : ((0 : Nat) : Int) < (size : Int) := by omega
    have hchunk := writeChunk_eq step hstart (by omega)
    have hfit := hfirst.2
    rw [Nat.zero_mul] at hfit
    simp only [sizeofFlashWrite] at hfit
    exact ⟨by omega, hlast.1, hcount⟩
  · rintro ⟨hfit, hlast, hcount⟩ k hk
    have hle : k * step ≤ lastChunk size step := le_lastChunk hstep (by omega)
    have hchunk := writeChunk_eq step hk (by omega)
    refine ⟨⟨by omega, ?_⟩, ?_⟩
    · simp only [sizeofFlashWrite]
      omega
    · unfold Countable
      omega

/-- The EC reports the ideal write size `w` to a call of `flash_write` and goes on with the events `t`. -/
def WriteRun (fuel w : Nat) (offset size : Int) (buffer : Buf) (start : Nat) (t : Trace Services)
    (o : Outcome Int) : Prop :=
  ∃ info r, 0 ≤ r.rv ∧ (r.into info sizeofFlashInfo1).le32 16 = w ∧
    Run (flashWrite fuel offset size buffer start)
      (⟨.indeterminate, info⟩ :: replied infoRequest r :: t) o

/-- Whatever the EC answers, a call in which it reports the ideal write size `w` does nothing
undefined, sends only what fits a packet, and ends. -/
structure WriteSafe (w : Nat) (offset size : Int) (buffer : Buf) (start : Nat) : Prop where
  defined : ∀ fuel t, ¬WriteRun fuel w offset size buffer start t (.halted .fault)
  fits : ∀ fuel t o c r, WriteRun fuel w offset size buffer start t o → replied c r ∈ t →
    c.outdata.length ≤ gEcMaxRequest
  ends : ∃ n, ∀ fuel ≥ n, ∀ t, ¬WriteRun fuel w offset size buffer start t (.halted .fuel)

theorem exists_info {w : Nat} (hw : w < 4294967296) :
    ∃ info r, 0 ≤ Reply.rv r ∧ (r.into info sizeofFlashInfo1).le32 16 = w := by
  refine ⟨fun _ => 0, ⟨24, List.replicate 16 0 ++ (Mem.le32Bytes w ++ List.replicate 4 0)⟩,
    by simp only; omega, ?_⟩
  have h := Mem.le32_ofList w (List.replicate 16 0) (List.replicate 4 0)
  rw [List.length_replicate, Nat.mod_eq_of_lt hw] at h
  refine (Mem.le32_congr fun k hk => ?_).trans h
  exact Mem.overlay_lt _ (by simp [Mem.le32Bytes, sizeofFlashInfo1]; omega)

section Run

variable {fuel w : Nat} {offset size : Int} {buffer : Buf} {start : Nat} {t : Trace Services}
  {o : Outcome Int}

theorem run_flashWrite_iff {info : Mem} {r : Reply} (hr : 0 ≤ r.rv) :
    Run (flashWrite fuel offset size buffer start)
        (⟨.indeterminate, info⟩ :: replied infoRequest r :: t) o ↔
      Run (if (r.into info sizeofFlashInfo1).le32 16 = 0 then .fault
        else Prog.loop (flashWriteRound offset size (writeStep ((r.into info sizeofFlashInfo1).le32 16))
          buffer start) fuel (0, ⟨fun _ => 0, gEcMaxRequest⟩)) t o := by
  unfold flashWrite
  refine Run.perform_bind_iff.trans (Run.perform_bind_iff.trans ?_)
  rw [if_neg (by omega)]

theorem writeRun_zero : WriteRun fuel 0 offset size buffer start [] (.halted .fault) := by
  obtain ⟨info, r, hr, hw⟩ := exists_info (w := 0) (by decide)
  refine ⟨info, r, hr, hw, (run_flashWrite_iff hr).2 ?_⟩
  rw [if_pos hw]
  exact .halt _

theorem writeRun_iff (hw : w ≠ 0) (hlt : w < 4294967296) :
    WriteRun fuel w offset size buffer start t o ↔
      Run (Prog.loop (flashWriteRound offset size (writeStep w) buffer start) fuel
        (0, ⟨fun _ => 0, gEcMaxRequest⟩)) t o := by
  constructor
  · rintro ⟨info, r, hr, rfl, h⟩
    rw [run_flashWrite_iff hr, if_neg hw] at h
    exact h
  · intro h
    obtain ⟨info, r, hr, rfl⟩ := exists_info hlt
    refine ⟨info, r, hr, rfl, (run_flashWrite_iff hr).2 ?_⟩
    rw [if_neg hw]
    exact h

end Run

section Safe

variable {w size start : Nat} {offset : Int} {buffer : Buf}

theorem atChunk_start (step : Nat) : AtChunk step 0 ((0 : Int), (⟨fun _ => 0, gEcMaxRequest⟩ : Buf)) :=
  ⟨by simp, rfl⟩

theorem WriteSafe.ne_zero (h : WriteSafe w offset size buffer start) : w ≠ 0 := by
  rintro rfl
  exact h.defined 0 [] writeRun_zero

/-- An EC that accepts every chunk would lead to one that is not in order. -/
theorem WriteSafe.chunkOk (h : WriteSafe w offset size buffer start) (hw : w < 4294967296)
    (hlo : -2147483648 ≤ offset) (hsize : size < 2147483648) (hbuffer : start + size ≤ buffer.size)
    (k : Nat) (hk : ((k * writeStep w : Nat) : Int) < size) : ChunkOk offset size (writeStep w) k := by
  by_contra hbad
  have hbad' : ¬ChunkOk offset size (writeStep w) (0 + k) := by rwa [Nat.zero_add]
  have hbuffer' : (start : Int) + (size : Int) ≤ buffer.size := by omega
  obtain ⟨t, ht⟩ := writeLoop_faults (n := k) hlo (by omega) hbuffer' (by rwa [Nat.zero_add]) hbad'
    (atChunk_start _) 0
  exact h.defined _ t ((writeRun_iff h.ne_zero hw).2 ht)

theorem WriteSafe.le_maxRequest (h : WriteSafe w offset size buffer start) (hw : w < 4294967296)
    (hlo : -2147483648 ≤ offset) (hsize : size < 2147483648) (hbuffer : start + size ≤ buffer.size)
    (hpos : 0 < size) : w ≤ gEcMaxRequest := by
  by_contra hbig
  have hzero := writeStep_eq_zero (Nat.lt_of_not_le hbig)
  have hok : ∀ k, ChunkOk offset size 0 k := fun k => by
    have hk := h.chunkOk hw hlo hsize hbuffer k
    rw [hzero] at hk
    exact hk (by omega)
  obtain ⟨n, hn⟩ := h.ends
  have hbuffer' : (start : Int) + (size : Int) ≤ buffer.size := by omega
  obtain ⟨t, ht⟩ := writeLoop_spins (k := 0) hlo (by omega) hbuffer' (by omega) hok n
    (atChunk_start 0)
  exact hn n (Nat.le_refl n) t ((writeRun_iff h.ne_zero hw).2 (by rwa [hzero]))

theorem writeSafe_of_chunkOk (hw0 : w ≠ 0) (hw : w < 4294967296) (hlo : -2147483648 ≤ offset)
    (hsize : size < 2147483648) (hbuffer : start + size ≤ buffer.size)
    (hstep : 0 < (size : Int) → 0 < writeStep w)
    (hok : ∀ k, ((k * writeStep w : Nat) : Int) < size → ChunkOk offset size (writeStep w) k) :
    WriteSafe w offset size buffer start := by
  have hbuffer' : (start : Int) + (size : Int) ≤ buffer.size := by omega
  have hholds (fuel : Nat) := writeLoop_holds hlo (by omega) hbuffer' hok fuel (atChunk_start _)
  refine ⟨fun fuel t ht => ?_, fun fuel t o c r ht hmem => ?_, size + 1, fun fuel hfuel t ht => ?_⟩
  · cases (hholds fuel).halted ((writeRun_iff hw0 hw).1 ht)
  · exact (hholds fuel).events ((writeRun_iff hw0 hw).1 ht) _ hmem c rfl
  · exact (writeLoop_ends hlo (by omega) hbuffer' hstep hok (by omega) (atChunk_start _)).halted
      ((writeRun_iff hw0 hw).1 ht)

end Safe

/-- **When `flash_write` is safe.** -/
theorem flashWrite_safe_iff (w : Nat) (hw : w < 4294967296) (offset : Int)
    (hlo : -2147483648 ≤ offset) (size : Nat) (hsize : size < 2147483648)
    (buffer : Buf) (start : Nat) (hbuffer : start + size ≤ buffer.size) :
    WriteSafe w offset size buffer start ↔ GoodGeometry w offset size := by
  constructor
  · intro hsafe
    refine ⟨hsafe.ne_zero, ?_⟩
    by_cases hzero : size = 0
    · exact .inl hzero
    have hpos : 0 < size := by omega
    have hmax := hsafe.le_maxRequest hw hlo hsize hbuffer hpos
    exact .inr ⟨hmax, (chunkOk_iff hsize hpos (writeStep_pos hsafe.ne_zero hmax)).1
      (hsafe.chunkOk hw hlo hsize hbuffer)⟩
  · rintro ⟨hw0, hzero | ⟨hmax, hgood⟩⟩
    · exact writeSafe_of_chunkOk hw0 hw hlo hsize hbuffer (by omega) fun k hk => by omega
    have hstep := writeStep_pos hw0 hmax
    refine writeSafe_of_chunkOk hw0 hw hlo hsize hbuffer (fun _ => hstep) fun k hk => ?_
    exact (chunkOk_iff hsize (by omega) hstep).2 hgood k hk

/-- Ideal writes of 64 bytes. -/
theorem flashWrite_safe_64 : WriteSafe 64 0 4096 ⟨fun _ => 0, 4096⟩ 0 :=
  (flashWrite_safe_iff 64 (by decide) 0 (by decide) 4096 (by decide) _ 0 (by decide)).2
    ⟨by decide, .inr ⟨by decide, by decide, by decide, by decide⟩⟩

/-- With ideal writes of 4 bytes a chunk takes up the whole packet, and its parameters do not fit. -/
theorem flashWrite_unsafe :
    ¬∀ (w : Nat) (offset : Int) (size : Nat) (buffer : Buf) (start : Nat), w < 4294967296 →
      0 ≤ offset → offset ≤ 2147483647 → size < 2147483648 → start + size ≤ buffer.size →
      WriteSafe w offset size buffer start := by
  intro h
  have hsafe := h 4 0 248 ⟨fun _ => 0, 248⟩ 0 (by decide) (by decide) (by decide) (by decide) (by decide)
  have hbad : ¬ChunkOk 0 (248 : Nat) (writeStep 4) 0 := fun hok => absurd hok.1.2 (by decide)
  have hstart : AtChunk (writeStep 4) 0 ((0 : Int), (⟨fun _ => 0, gEcMaxRequest⟩ : Buf)) :=
    ⟨by simp, rfl⟩
  have hbuffer : ((0 : Nat) : Int) + ((248 : Nat) : Int) ≤ (⟨fun _ => 0, 248⟩ : Buf).size := by decide
  obtain ⟨t, ht⟩ := run_badChunk (by decide) (by decide) hbuffer (by decide) hbad hstart 0
  exact hsafe.defined 1 t ((writeRun_iff (by decide) (by decide)).2 ht)

end FrameworkHacks.ECTool
