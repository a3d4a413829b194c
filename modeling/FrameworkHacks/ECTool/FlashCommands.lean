import FrameworkHacks.ECTool.Flash

/-!
# What the flash functions send

Each of `flash_erase`, `flash_write` and `flash_read` sends few kinds of commands, and the range of
flash a command names lies in the range the function was called with (`flashErase_sends`,
`flashWrite_sends`, `flashRead_sends`). A write carries the bytes of the buffer.
-/

namespace FrameworkHacks.ECTool

open Effects

/-- The host command an event sends. -/
def hostCommand (e : Event Services) : Option HostCommand :=
  match e.op with
  | .sendCommand c => some c
  | _ => none

/-- The reply `r` to the request `c`. -/
def replied (c : HostCommand) (r : Reply) : Event Services := ⟨.sendCommand c, r⟩

/-- Every host command of the event satisfies `P`. -/
def Sends (P : HostCommand → Prop) (e : Event Services) : Prop := ∀ c ∈ hostCommand e, P c

/-- The offset and size an erase or write command names, as the EC reads them. -/
def flashRange (c : HostCommand) : Option (Nat × Nat) :=
  let p := Mem.ofList c.outdata
  if c.command = ecCmdFlashErase then
    some (if c.version = 0 then (p.le32 0, p.le32 4) else (p.le32 4, p.le32 8))
  else if c.command = ecCmdFlashWrite then some (p.le32 0, p.le32 4)
  else none

/-- Commands that neither erase nor write, and do not notify either. -/
def Harmless (c : HostCommand) : Prop :=
  c.command ≠ ecCmdFlashErase ∧ c.command ≠ ecCmdFlashWrite ∧ c.command ≠ ecCmdFlashNotified

theorem Sends.mono {P Q : HostCommand → Prop} {e : Event Services} (h : Sends P e)
    (hPQ : ∀ c, P c → Q c) : Sends Q e := fun c hc => hPQ c (h c hc)

theorem sends_sendCommand {P : HostCommand → Prop} {c : HostCommand} {r : Reply} (h : P c) :
    Sends P (⟨.sendCommand c, r⟩ : Event Services) := fun _ hc => by
  cases hc
  exact h

theorem holds_sends {α : Type} {H : Halt → Prop} {G : Event Services → Prop} {P P' : HostCommand → Prop}
    {Q : α → Prop} {p : Prog Services α} (h : Prog.Holds H G (Sends P) Q p) (hP : ∀ c, P c → P' c) :
    Prog.Holds H G (Sends P') Q p :=
  h.mono (fun _ he => he.mono hP) fun _ ha => ha

/-! ### Parameters -/

theorem toUint32_of_lt {a : Int} (h₀ : 0 ≤ a) (h₁ : a < 4294967296) : toUint32 a = a.toNat := by
  rw [toUint32, Int.emod_eq_of_lt h₀ h₁]

theorem le32_offsetSize {offset size : Nat} (pre post : List UInt8) (ho : offset < 4294967296)
    (hs : size < 4294967296) :
    (Mem.ofList (pre ++ (offsetSize offset size ++ post))).le32 pre.length = offset ∧
      (Mem.ofList (pre ++ (offsetSize offset size ++ post))).le32 (pre.length + 4) = size := by
  constructor
  · rw [offsetSize, List.append_assoc, Mem.le32_ofList, Nat.mod_eq_of_lt ho]
  · have := Mem.le32_ofList size (pre ++ Mem.le32Bytes offset) post
    rw [List.length_append, Nat.mod_eq_of_lt hs] at this
    simpa [offsetSize, Mem.le32Bytes] using this

/-! ### Erasing -/

/-- A command of `flash_erase` for a range. -/
def EraseCommand (offset size : Nat) (c : HostCommand) : Prop :=
  Harmless c ∨ c.command = ecCmdFlashErase ∧ flashRange c = some (offset, size)

theorem eraseCommand_v0 {offset size : Nat} (ho : offset < 4294967296) (hs : size < 4294967296) :
    EraseCommand offset size ⟨ecCmdFlashErase, 0, offsetSize offset size, 0⟩ := by
  have h := le32_offsetSize [] [] ho hs
  rw [List.append_nil] at h
  refine .inr ⟨rfl, ?_⟩
  simp only [flashRange, if_true]
  exact congrArg some (Prod.ext h.1 h.2)

theorem eraseCommand_v1 (cmd : UInt8) {offset size : Nat} (ho : offset < 4294967296)
    (hs : size < 4294967296) :
    EraseCommand offset size ⟨ecCmdFlashErase, 1, eraseParams cmd offset size, 0⟩ := by
  have h := le32_offsetSize [cmd, 0, 0, 0] [] ho hs
  rw [List.append_nil] at h
  refine .inr ⟨rfl, ?_⟩
  simp only [flashRange, if_true]
  exact congrArg some (Prod.ext h.1 h.2)

section Erase

variable {H : Halt → Prop} {offset size : Nat}

theorem flashEraseAsync_sends (hH : H .fuel) (ho : offset < 4294967296) (hs : size < 4294967296) :
    Prog.Holds H (fun _ => True) (Sends (EraseCommand offset size)) (fun _ => True)
      (flashEraseAsync offset size) := by
  have hou : toUint32 (offset : Int) = offset := toUint32_of_lt (by omega) (by omega)
  have hsu : toUint32 (size : Int) = size := toUint32_of_lt (by omega) (by omega)
  have hsend (cmd : UInt8) : Prog.Holds H (fun _ => True) (Sends (EraseCommand offset size))
      (fun _ => True) (sendErase cmd offset size) := fun r => by
    rw [hou, hsu]
    exact ⟨sends_sendCommand (eraseCommand_v1 cmd ho hs), fun _ => trivial⟩
  unfold flashEraseAsync
  refine (hsend _).bind ?_
  intro r _
  split
  · trivial
  refine Prog.Holds.loop (I := fun _ => True) hH ?_ _ _ trivial
  intro tries _
  unfold getResultRound
  refine Prog.Holds.perform_bind fun _ => ⟨nofun, fun _ => ?_⟩
  refine (hsend _).bind ?_
  intro r _
  split <;> trivial

theorem flashErase_sends (hH : H .fuel) (ho : offset < 4294967296) (hs : size < 4294967296) :
    Prog.Holds H (fun _ => True) (Sends (EraseCommand offset size)) (fun _ => True)
      (flashErase offset size) := by
  have hou : toUint32 (offset : Int) = offset := toUint32_of_lt (by omega) (by omega)
  have hsu : toUint32 (size : Int) = size := toUint32_of_lt (by omega) (by omega)
  have hharmless {c : HostCommand} (hc : Harmless c) (r : Reply) :
      Sends (EraseCommand offset size) ⟨.sendCommand c, r⟩ := sends_sendCommand (.inl hc)
  rw [flashErase]
  refine Prog.Holds.perform_bind fun _ => ⟨nofun, fun _ => ?_⟩
  refine Prog.Holds.perform_bind fun r => ⟨hharmless (by simp [Harmless]; decide) r, fun _ => ?_⟩
  split
  · exact flashEraseAsync_sends hH ho hs
  rw [hou, hsu]
  refine Prog.Holds.perform_bind fun r => ⟨sends_sendCommand (eraseCommand_v0 ho hs), fun _ => ?_⟩
  refine Prog.Holds.loop (I := fun _ => True) hH ?_ _ _ trivial
  rintro ⟨rv, tries⟩ _
  rw [helloRound]
  split
  · refine Prog.Holds.perform_bind fun _ => ⟨nofun, fun _ => ?_⟩
    exact Prog.Holds.perform_bind fun r => ⟨hharmless (by simp [Harmless]; decide) r, fun _ => trivial⟩
  · trivial

end Erase

/-! ### Writing -/

/-- A command of `flash_write` for a range, with its bytes from `source` on. -/
def WriteCommand (source : Mem) (offset size : Nat) (c : HostCommand) : Prop :=
  Harmless c ∨ c.command = ecCmdFlashWrite ∧ ∃ i n, i + n ≤ size ∧
    flashRange c = some (offset + i, n) ∧ c.outdata.length = sizeofFlashWrite + n ∧
    ∀ j < n, Mem.ofList c.outdata (sizeofFlashWrite + j) = source (i + j)

/-- The request `flash_write` lays out in `commandBuffer`. -/
def writeRequest (commandBuffer : Mem) (offset size : Nat) (source : Mem) : Mem :=
  (commandBuffer.copy 0 (Mem.ofList (offsetSize offset size)) sizeofFlashWrite).copy sizeofFlashWrite
    source size

theorem writeRequest_header (commandBuffer : Mem) (offset size : Nat) (source : Mem) {i : Nat}
    (hi : i < 8) :
    writeRequest commandBuffer offset size source i = Mem.ofList (offsetSize offset size) i := by
  rw [writeRequest, Mem.copy_out _ _ (.inl (show i < sizeofFlashWrite from hi))]
  exact Mem.copy_front _ _ hi

theorem writeCommand_request (commandBuffer source : Mem) {offset size i n : Nat}
    (ho : offset + i < 4294967296) (hn : n < 4294967296) (hin : i + n ≤ size) :
    WriteCommand source offset size ⟨ecCmdFlashWrite, 1,
      (writeRequest commandBuffer (offset + i) n (source.drop i)).toList (sizeofFlashWrite + n), 0⟩ := by
  have hheader := le32_offsetSize [] [] ho hn
  rw [List.append_nil, List.nil_append] at hheader
  have hbyte : ∀ k < 8, Mem.ofList ((writeRequest commandBuffer (offset + i) n (source.drop i)).toList
      (sizeofFlashWrite + n)) k = Mem.ofList (offsetSize (offset + i) n) k := fun k hk => by
    rw [Mem.ofList_toList _ (by simp only [sizeofFlashWrite]; omega), writeRequest_header _ _ _ _ hk]
  refine .inr ⟨rfl, i, n, hin, ?_, by simp, fun j hj => ?_⟩
  · simp only [flashRange, ecCmdFlashWrite, ecCmdFlashErase, Nat.reduceEqDiff, if_false, if_true]
    refine congrArg some (Prod.ext ?_ ?_)
    · exact (Mem.le32_congr fun k hk => hbyte _ (by omega)).trans hheader.1
    · exact (Mem.le32_congr fun k hk => hbyte _ (by omega)).trans hheader.2
  · rw [Mem.ofList_toList _ (by omega), writeRequest, Mem.copy_in _ _ hj, Mem.drop_apply]

theorem flashWriteRound_sends {H : Halt → Prop} (hfault : H .fault) (offset size step : Nat)
    (hstep : step ≤ gEcMaxRequest) (buffer : Buf) (start : Nat) (s : Int × Buf) (hs : 0 ≤ s.1) :
    Prog.Holds H (fun _ => True) (Sends (WriteCommand (buffer.bytes.drop start) offset size))
      (Sum.elim (fun _ => True) fun s' => 0 ≤ s'.1) (flashWriteRound offset size step buffer start s) := by
  obtain ⟨i, commandBuffer⟩ := s
  obtain ⟨k, rfl⟩ := Int.eq_ofNat_of_zero_le hs
  unfold flashWriteRound
  by_cases hlt : (k : Int) < size
  · simp only [if_pos hlt]
    refine (holds_addInt (Q := fun a => a = ((offset + k : Nat) : Int) ∧ offset + k ≤ 2147483647) hfault
      fun h => ⟨by push_cast; rfl, by omega⟩).bind ?_
    rintro _ ⟨rfl, hk⟩
    obtain ⟨n, hn, hns⟩ : ∃ n : Nat, min ((size : Int) - k) step = n ∧ k + n ≤ size :=
      ⟨(min ((size : Int) - k) step).toNat, by omega, by omega⟩
    have hsmall : n < 4294967296 := by
      rw [gEcMaxRequest_eq] at hstep
      omega
    rw [hn, toUint32_of_lt (by omega) (by omega), toUint32_of_lt (by omega) (by omega)]
    simp only [Int.toNat_natCast]
    refine (Buf.holds_copyIn (Q := fun b => b.bytes = commandBuffer.bytes.copy 0
      (Mem.ofList (offsetSize (offset + k) n)) sizeofFlashWrite) hfault fun _ => rfl).bind ?_
    intro b hb
    refine (Buf.holds_copyOut (Q := fun m => m = (buffer.bytes.drop start).drop k) hfault
      fun _ => funext fun j => by simp [Nat.add_assoc]).bind ?_
    rintro _ rfl
    refine (Buf.holds_copyIn (Q := fun b => b.bytes = writeRequest commandBuffer.bytes (offset + k) n
      ((buffer.bytes.drop start).drop k)) hfault fun _ => by simp only [hb]; rfl).bind ?_
    intro b hb
    rw [hb]
    refine Prog.Holds.perform_bind fun r =>
      ⟨sends_sendCommand (writeCommand_request _ _ (by omega) hsmall hns), fun _ => ?_⟩
    split
    · trivial
    · refine (holds_addInt (Q := fun a => 0 ≤ a) hfault fun _ => by omega).bind fun a ha => ha
  · simp only [if_neg hlt]
    trivial

theorem flashWrite_sends {H : Halt → Prop} (hfault : H .fault) (hfuel : H .fuel) (fuel : Nat)
    (offset size : Nat) (buffer : Buf) (start : Nat) :
    Prog.Holds H (fun _ => True) (Sends (WriteCommand (buffer.bytes.drop start) offset size))
      (fun _ => True) (flashWrite fuel offset size buffer start) := by
  have hinfo (r : Reply) : Sends (WriteCommand (buffer.bytes.drop start) offset size)
      ⟨.sendCommand ⟨ecCmdFlashInfo, 1, [], sizeofFlashInfo1⟩, r⟩ :=
    sends_sendCommand (.inl (by simp [Harmless]; decide))
  unfold flashWrite
  refine Prog.Holds.perform_bind fun info => ⟨nofun, fun _ => ?_⟩
  refine Prog.Holds.perform_bind fun r => ⟨hinfo r, fun _ => ?_⟩
  split
  · trivial
  simp only []
  split
  · exact hfault
  -- the counter, the number of bytes sent so far, never falls below 0
  exact Prog.Holds.loop (I := fun s => 0 ≤ s.1) hfuel
    (fun s hs => flashWriteRound_sends hfault offset size _ (Nat.div_mul_le_self _ _) buffer start s hs)
    _ _ (Int.le_refl 0)

/-! ### Reading -/

theorem flashRead_sends {H : Halt → Prop} (hfault : H .fault) (hfuel : H .fuel)
    (offset size : Int) (buffer : Buf) (start : Nat) :
    Prog.Holds H (fun _ => True) (Sends Harmless) (fun _ => True)
      (flashRead offset size buffer start) := by
  unfold flashRead
  refine Prog.Holds.loop (I := fun _ => True) hfuel ?_ _ _ trivial
  rintro ⟨i, buf, buffer⟩ _
  unfold flashReadRound
  by_cases hlt : i < size
  · simp only [if_pos hlt]
    refine (holds_addInt (Q := fun _ => True) hfault fun _ => trivial).bind ?_
    intro a _
    refine Prog.Holds.perform_bind fun r =>
      ⟨sends_sendCommand (by simp [Harmless]; decide), fun _ => ?_⟩
    split
    · trivial
    refine (Buf.holds_copyIn (Q := fun _ => True) hfault fun _ => trivial).bind ?_
    intro b _
    exact (holds_addInt (Q := fun _ => True) hfault fun _ => trivial).bind fun a _ => trivial
  · simp only [if_neg hlt]
    trivial

end FrameworkHacks.ECTool
