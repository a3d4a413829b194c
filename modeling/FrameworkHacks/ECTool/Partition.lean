import FrameworkHacks.ECTool.Writing

/-!
# The chunks of a write cut its range

Where the chunks fit a packet, the commands `flash_write` sends name consecutive ranges, from the
offset on, and carry the bytes of the buffer for them. An error ends the write there
(`flashWrite_partitions_iff`).
-/

namespace FrameworkHacks.ECTool

open Effects

/-! ### Ranges -/

/-- The offset and size that a write command names. -/
def writeRange (c : HostCommand) : Nat × Nat :=
  ((Mem.ofList c.outdata).le32 0, (Mem.ofList c.outdata).le32 4)

/-- The ranges are not empty and cut the range from `a` to `b` in order, without gap or overlap. -/
def Tiles : Nat → List (Nat × Nat) → Nat → Prop
  | a, [], b => a = b
  | a, (o, n) :: rest, b => o = a ∧ 0 < n ∧ Tiles (a + n) rest b

/-- The commands `cs` write the first `k` bytes of `source` from `offset` on. -/
structure Partition (w offset size : Nat) (source : Mem) (cs : List HostCommand) (k : Nat) : Prop where
  tiles : Tiles offset (cs.map writeRange) (offset + k)
  /-- A command names its range and carries the bytes for it, nothing else. -/
  carries : ∀ c ∈ cs, c = ⟨ecCmdFlashWrite, 1, offsetSize (writeRange c).1 (writeRange c).2 ++
    (source.drop ((writeRange c).1 - offset)).toList (writeRange c).2, 0⟩
  /-- All but the last command are of whole ideal writes. -/
  whole : ∀ c ∈ cs.dropLast, w ∣ (writeRange c).2
  within : k ≤ size

/-- The commands with their replies. -/
abbrev Writes := List (HostCommand × Reply)

def Writes.trace (ws : Writes) : Trace Services := ws.map fun x => replied x.1 x.2

/-- Every reply was no error. -/
def Writes.Accepted (ws : Writes) : Prop := ∀ x ∈ ws, 0 ≤ x.2.rv

/-- The value `rv` is that of a write which sent `ws` and got through with `k` bytes: 0 if that is all of
it and nothing failed, else the error that ended it. -/
def Reports (size k : Nat) (ws : Writes) (rv : Int) : Prop :=
  (rv = 0 ↔ k = size ∧ ws.Accepted) ∧
    (¬(k = size ∧ ws.Accepted) → ∃ sent c r, ws = sent ++ [(c, r)] ∧ Writes.Accepted sent ∧
      r.rv < 0 ∧ rv = r.rv)

/-- A call of `flash_write` that ends, ends with a value, having cut the range into chunks. -/
def Partitions (w offset size : Nat) (buffer : Buf) (start : Nat) : Prop :=
  ∀ fuel > size, ∀ t o, WriteRun fuel w offset size buffer start t o → o ≠ .running →
    ∃ (ws : Writes) (k : Nat) (rv : Int), o = .done rv ∧ t = ws.trace ∧
      Partition w offset size (buffer.bytes.drop start) (ws.map Prod.fst) k ∧ Reports size k ws rv

/-! ### Runs of the loop -/

/-- The writes from the chunk at `i` on, and the value they end with. -/
inductive WriteChunks (offset size step : Nat) (source : Mem) : Nat → Writes → Int → Prop
  | done {i : Nat} (h : size ≤ i) : WriteChunks offset size step source i [] 0
  | error {i : Nat} {r : Reply} (hlt : i < size) (hrv : r.rv < 0) :
      WriteChunks offset size step source i [(writeCommand offset size step source i, r)] r.rv
  | chunk {i : Nat} {r : Reply} {ws : Writes} {rv : Int} (hlt : i < size) (hrv : 0 ≤ r.rv)
      (h : WriteChunks offset size step source (i + step) ws rv) :
      WriteChunks offset size step source i ((writeCommand offset size step source i, r) :: ws) rv

section Chunks

variable {w offset size step start : Nat} {source : Mem} {buffer : Buf}

theorem writeLoop_chunks (hsize : size < 2147483648) (hbuffer : start + size ≤ buffer.size)
    (hok : ∀ k, ((k * step : Nat) : Int) < size → ChunkOk offset size step k) {fuel k : Nat}
    {s : Int × Buf} (hs : AtChunk step k s) {t : Trace Services} {rv : Int}
    (h : Run (Prog.loop (flashWriteRound offset size step buffer start) fuel s) t (.done rv)) :
    ∃ ws : Writes, t = ws.trace ∧
      WriteChunks offset size step (buffer.bytes.drop start) (k * step) ws rv := by
  have hbuffer' : (start : Int) + (size : Int) ≤ buffer.size := by omega
  induction fuel generalizing k s t with
  | zero => cases h
  | succ fuel ih =>
    obtain ⟨i, commandBuffer⟩ := s
    obtain ⟨rfl, hcommand⟩ := hs
    rw [Prog.loop_succ] at h
    by_cases hlt : ((k * step : Nat) : Int) < size
    · obtain ⟨hsend, hcount⟩ := hok k hlt
      obtain ⟨commandBuffer', hcommand', hround⟩ :=
        writeRound_eq (by omega) (by omega) hbuffer' hcommand hlt hsend
      rw [hround, bind_assoc] at h
      obtain ⟨r, u, rfl, hu⟩ := h.perform_bind_done
      by_cases hr : r.rv < 0
      · rw [if_pos hr] at hu
        obtain ⟨rfl, rfl⟩ := Run.pure_done hu
        exact ⟨_, rfl, .error (by omega) hr⟩
      · rw [if_neg hr, addInt_countable hcount, pure_bind, pure_bind] at hu
        obtain ⟨ws, rfl, hws⟩ := ih (k := k + 1) ⟨by rw [Nat.succ_mul], hcommand'⟩ hu
        rw [Nat.succ_mul] at hws
        exact ⟨_, rfl, .chunk (by omega) (by omega) hws⟩
    · rw [flashWriteRound, if_neg hlt] at h
      obtain ⟨rfl, rfl⟩ := Run.pure_done h
      exact ⟨[], rfl, .done (by omega)⟩

theorem writeRange_writeCommand (hrange : offset + size < 2147483648) {i : Nat} (hlt : i < size) :
    writeRange (writeCommand offset size step source i) = (offset + i, min (size - i) step) := by
  have hstart : (i : Int) < (size : Int) := by omega
  have hchunk := writeChunk_eq step hstart (by omega)
  have hn : writeChunk size step i = min (size - i) step := by omega
  have haddress : toUint32 ((offset : Int) + i) = offset + i := toUint32_of_lt (by omega) (by omega)
  have h := le32_offsetSize [] ((source.drop i).toList (min (size - i) step))
    (show offset + i < 4294967296 by omega) (show min (size - i) step < 4294967296 by omega)
  simp only [writeRange, writeCommand, haddress, hn]
  exact Prod.ext h.1 h.2

/-! ### What the chunks are -/

theorem WriteChunks.tiles (hrange : offset + size < 2147483648) (hstep : 0 < step) {i : Nat}
    {ws : Writes} {rv : Int} (h : WriteChunks offset size step source i ws rv) :
    ∃ k ≤ size, Tiles (offset + min i size) ((ws.map Prod.fst).map writeRange) (offset + k) ∧
      (rv = 0 ∧ k = size ∧ ws.Accepted ∨ ∃ sent c r, ws = sent ++ [(c, r)] ∧ Writes.Accepted sent ∧
        r.rv < 0 ∧ rv = r.rv) := by
  induction h with
  | done h => exact ⟨size, Nat.le_refl _, by simp [Tiles]; omega, .inl ⟨rfl, rfl, by simp [Writes.Accepted]⟩⟩
  | @error i r hlt hrv =>
    refine ⟨i + min (size - i) step, by omega, ?_, .inr ⟨[], _, r, rfl, by simp [Writes.Accepted], hrv, rfl⟩⟩
    simp only [List.map_cons, List.map_nil, writeRange_writeCommand hrange hlt, Tiles]
    omega
  | @chunk i r ws rv hlt hrv _ ih =>
    obtain ⟨k, hk, htiles, hend⟩ := ih
    refine ⟨k, hk, ?_, ?_⟩
    · simp only [List.map_cons, writeRange_writeCommand hrange hlt, Tiles]
      refine ⟨by omega, by omega, ?_⟩
      rwa [show offset + min i size + min (size - i) step = offset + min (i + step) size by omega]
    · have hcons {sent : Writes} (hsent : sent.Accepted) :
          Writes.Accepted ((writeCommand offset size step source i, r) :: sent) := by
        intro x hx
        rcases List.mem_cons.1 hx with rfl | hx
        · exact hrv
        · exact hsent x hx
      rcases hend with ⟨hzero, hall, hws⟩ | ⟨sent, c, r', rfl, hsent, hneg, hrv'⟩
      · exact .inl ⟨hzero, hall, hcons hws⟩
      · exact .inr ⟨_, c, r', rfl, hcons hsent, hneg, hrv'⟩

theorem WriteChunks.command {i : Nat} {ws : Writes} {rv : Int}
    (h : WriteChunks offset size step source i ws rv) {c : HostCommand} (hc : c ∈ ws.map Prod.fst) :
    ∃ j < size, c = writeCommand offset size step source j := by
  induction h with
  | done h => cases hc
  | @error i r hlt hrv => exact ⟨i, hlt, by simpa using hc⟩
  | @chunk i r ws rv hlt hrv _ ih =>
    rcases List.mem_cons.1 hc with rfl | hc
    · exact ⟨i, hlt, rfl⟩
    · exact ih hc

theorem WriteChunks.lt_of_ne_nil {i : Nat} {ws : Writes} {rv : Int}
    (h : WriteChunks offset size step source i ws rv) (hne : ws ≠ []) : i < size := by
  cases h with
  | done h => exact absurd rfl hne
  | error hlt hrv => exact hlt
  | chunk hlt hrv h => exact hlt

theorem WriteChunks.whole (hrange : offset + size < 2147483648) (hw : w ∣ step) {i : Nat} {ws : Writes}
    {rv : Int} (h : WriteChunks offset size step source i ws rv) :
    ∀ c ∈ (ws.map Prod.fst).dropLast, w ∣ (writeRange c).2 := by
  induction h with
  | done h => simp
  | error hlt hrv => simp
  | @chunk i r ws rv hlt hrv hrest ih =>
    intro c hc
    cases ws with
    | nil => simp at hc
    | cons x ws =>
      have hnext := hrest.lt_of_ne_nil (by simp)
      rw [List.map_cons, List.map_cons, List.dropLast_cons_cons] at hc
      rcases List.mem_cons.1 hc with rfl | hc
      · rw [writeRange_writeCommand hrange hlt, show min (size - i) step = step by omega]
        exact hw
      · exact ih c (by simpa using hc)

theorem writeCommand_carries (hrange : offset + size < 2147483648) {i : Nat} (hlt : i < size) :
    writeCommand offset size step source i = ⟨ecCmdFlashWrite, 1,
      offsetSize (offset + i) (min (size - i) step) ++
        (source.drop (offset + i - offset)).toList (min (size - i) step), 0⟩ := by
  have hstart : (i : Int) < (size : Int) := by omega
  have hchunk := writeChunk_eq step hstart (by omega)
  have hn : writeChunk size step i = min (size - i) step := by omega
  have haddress : toUint32 ((offset : Int) + i) = offset + i := toUint32_of_lt (by omega) (by omega)
  rw [writeCommand, hn, haddress, Nat.add_sub_cancel_left]

theorem WriteChunks.partition (hrange : offset + size < 2147483648) (hstep : 0 < step) (hw : w ∣ step)
    {ws : Writes} {rv : Int} (h : WriteChunks offset size step source 0 ws rv) :
    ∃ k, Partition w offset size source (ws.map Prod.fst) k ∧ Reports size k ws rv := by
  obtain ⟨k, hk, htiles, hend⟩ := h.tiles hrange hstep
  rw [Nat.zero_min, Nat.add_zero] at htiles
  refine ⟨k, ⟨htiles, fun c hc => ?_, h.whole hrange hw, hk⟩, ?_⟩
  · obtain ⟨j, hj, rfl⟩ := h.command hc
    rw [writeRange_writeCommand hrange hj]
    exact writeCommand_carries hrange hj
  · rcases hend with ⟨rfl, hall, hws⟩ | ⟨sent, c, r, rfl, hsent, hneg, rfl⟩
    · exact ⟨iff_of_true rfl ⟨hall, hws⟩, fun hnot => absurd ⟨hall, hws⟩ hnot⟩
    · have hfails : ¬Writes.Accepted (sent ++ [(c, r)]) := fun hall => by
        have := hall (c, r) (by simp)
        simp only at this
        omega
      refine ⟨iff_of_false (by omega) fun hall => hfails hall.2, fun _ => ?_⟩
      exact ⟨sent, c, r, rfl, hsent, hneg, rfl⟩

end Chunks

/-- The loop counter overflows after the last chunk. -/
theorem not_partitions {w offset size : Nat} (hw : w < 4294967296) (hw0 : w ≠ 0)
    (hrange : offset + size < 2147483648) {buffer : Buf} {start : Nat}
    (hbuffer : start + size ≤ buffer.size) (hpos : 0 < size)
    (hwide : 2147483647 < lastChunk size (writeStep w) + writeStep w) :
    ¬Partitions w offset size buffer start := by
  intro hpartitions
  have hlast : lastChunk size (writeStep w) < size := lastChunk_lt hpos
  have hbad : ¬ChunkOk offset size (writeStep w) (0 + (size - 1) / writeStep w) := by
    rw [Nat.zero_add]
    exact fun hok => absurd hok.2 (Nat.not_le_of_lt hwide)
  have hstart : AtChunk (writeStep w) 0 ((0 : Int), (⟨fun _ => 0, gEcMaxRequest⟩ : Buf)) := ⟨by simp, rfl⟩
  have hbuffer' : (start : Int) + (size : Int) ≤ buffer.size := by omega
  obtain ⟨t, ht⟩ := writeLoop_faults (by omega) (by omega) hbuffer'
    (by rw [Nat.zero_add]; exact_mod_cast hlast) hbad hstart size
  obtain ⟨_, _, rv, hdone, -⟩ := hpartitions _ (Nat.lt_succ_of_le (Nat.le_add_left size _)) t _
    ((writeRun_iff hw0 hw).2 ht) (by simp)
  cases hdone

/-- **When `flash_write` cuts its range into chunks and reports what became of them.** -/
theorem flashWrite_partitions_iff (w : Nat) (hw : w < 4294967296) (hlo : 1 ≤ writeStep w)
    (hhi : writeStep w ≤ 240) (offset size : Nat) (hrange : offset + size < 2147483648) (buffer : Buf)
    (start : Nat) (hbuffer : start + size ≤ buffer.size) :
    Partitions w offset size buffer start ↔
      size = 0 ∨ lastChunk size (writeStep w) + writeStep w ≤ 2147483647 := by
  have hw0 : w ≠ 0 := by
    rintro rfl
    simp [writeStep] at hlo
  have hbuffer' : (start : Int) + (size : Int) ≤ buffer.size := by omega
  have hstart : AtChunk (writeStep w) 0 ((0 : Int), (⟨fun _ => 0, gEcMaxRequest⟩ : Buf)) := ⟨by simp, rfl⟩
  constructor
  · intro hpartitions
    by_contra hnot
    obtain ⟨hpos, hwide⟩ := not_or.1 hnot
    exact not_partitions hw hw0 hrange hbuffer (by omega) (by omega) hpartitions
  · intro hwide
    have hok : ∀ k, ((k * writeStep w : Nat) : Int) < size → ChunkOk offset size (writeStep w) k := by
      intro k hk
      have hpos : 0 < size := by omega
      have hlast : lastChunk size (writeStep w) < size := lastChunk_lt hpos
      have hcount := hwide.resolve_left (by omega)
      exact (chunkOk_iff (by omega) hpos (by omega)).2 ⟨.inl hhi, by omega, hcount⟩ k hk
    intro fuel hfuel t o hrun hend
    have hloop := (writeRun_iff hw0 hw).1 hrun
    have hfuel' : (size : Int).toNat < fuel := by omega
    have hholds := writeLoop_ends (by omega) (by omega) hbuffer' (fun _ => hlo) hok hfuel' hstart
    cases o with
    | running => exact absurd rfl hend
    | halted r => exact (hholds.halted hloop).elim
    | done rv =>
      obtain ⟨ws, rfl, hws⟩ := writeLoop_chunks (by omega) hbuffer hok hstart hloop
      rw [Nat.zero_mul] at hws
      obtain ⟨k, hpart, hreports⟩ := hws.partition hrange hlo (Nat.dvd_mul_left w _)
      exact ⟨ws, k, rv, rfl, rfl, hpart, hreports⟩

/-- Ideal writes of 64 bytes. -/
theorem flashWrite_partitions_64 : Partitions 64 4096 1000 ⟨fun _ => 0, 1000⟩ 0 :=
  (flashWrite_partitions_iff 64 (by decide) (by decide) (by decide) 4096 1000 (by decide) _ 0 (by decide)).2
    (.inr (by decide))

/-- Two gigabytes, less one byte, in chunks of 240. -/
theorem flashWrite_overflows :
    ¬∀ (w offset size : Nat) (buffer : Buf) (start : Nat), w < 4294967296 → 1 ≤ writeStep w →
      writeStep w ≤ 240 → offset + size < 2147483648 → start + size ≤ buffer.size →
      Partitions w offset size buffer start := by
  intro h
  refine not_partitions (by decide) (by decide) (by decide) (Nat.le_refl _) (by decide) (by decide)
    (h 240 0 2147483647 ⟨fun _ => 0, 0 + 2147483647⟩ 0 (by decide) (by decide) (by decide) (by decide)
      (Nat.le_refl _))

end FrameworkHacks.ECTool
