import FrameworkHacks.ECTool.Reading
import FrameworkHacks.ECTool.Stages
import FrameworkHacks.ECTool.ECTool

/-!
# What a flash dump contains

`flashread` against an EC with the flash contents `F`. What the file is given is known byte by byte
(`dumpByte`), whatever the arguments are: the flash up to the size as an `int`, at the addresses an
`int` and a `uint32_t` make of the offset, and beyond it what the allocation held.
-/

namespace FrameworkHacks.ECTool

open Effects

/-! ### The promise -/

/-- What `ShellStrToUintn` returns for a text that is not a number. -/
def unparsable : UInt64 := 0xFFFFFFFFFFFFFFFF

/-- A `FLASH_READ` is answered with the bytes of `F` it asks for. -/
def FromFlash (F : Mem) (e : Event Services) : Prop :=
  match e with
  | ⟨.sendCommand c, r⟩ => c.command = ecCmdFlashRead →
      r = ⟨c.insize, (F.drop ((Mem.ofList c.outdata).le32 0)).toList c.insize⟩
  | _ => True

/-- The first argument is parsed as `offset`, the second as `size`. -/
def ParsedAs (argv : List String) (offset size : UInt64) (e : Event Services) : Prop :=
  match e with
  | ⟨.shellStrToUintn text, v⟩ =>
    (text = argv.getD 1 "" → v = offset) ∧ (text = argv.getD 2 "" → v = size)
  | _ => True

/-- The bytes handed to `ShellWriteFile`. -/
def handedOver (t : Trace Services) : List UInt8 :=
  t.flatMap fun e => match e.op with
    | .shellWriteFile size buffer => buffer.toList size.toNat
    | _ => []

/-- What is promised of a run. A signed overflow breaks the promise too, unless `mayOverflow`. -/
structure HonestDump (mayOverflow : Bool) (F : Mem) (offset size : UInt64) (t : Trace Services)
    (o : Outcome EfiStatus) : Prop where
  complete : o = .done efiSuccess → handedOver t = (F.drop offset.toNat).toList size.toNat
  refused : offset = unparsable ∨ size = unparsable →
    (∀ c r, replied c r ∉ t) ∧ ∀ status, o = .done status → status = efiInvalidParameter
  defined : o = .halted .fault → mayOverflow = true

def DumpComplete (mayOverflow : Bool) (offset size : UInt64) : Prop :=
  ∀ (F : Mem) (argv : List String) (t : Trace Services) (o : Outcome EfiStatus),
    Run (cmdFlashread argv) t o → (∀ e ∈ t, FromFlash F e) →
      (∀ e ∈ t, ParsedAs argv offset size e) → HonestDump mayOverflow F offset size t o

/-! ### The chunks -/

/-- A read of `size` bytes has a chunk at `i`. -/
def ChunkAt (size : Int) (i : Nat) : Prop := i % 248 = 0 ∧ i < size

/-- At the chunk at `i` the offset of the request or the next value of the loop counter is not an
`int`. -/
def OverflowsAt (offset : Int) (i : Nat) : Prop := 2147483647 < offset + i ∨ 2147483647 < (i : Int) + 248

def Overflows (offset size : Int) : Prop := ∃ i, ChunkAt size i ∧ OverflowsAt offset i

/-- The size is an `int`, and the offset of every chunk a `uint32_t`. -/
def InRange (offset size : UInt64) : Prop :=
  size.toNat < 2147483648 ∧ ∀ i, ChunkAt size.toNat i → offset.toNat + i < 4294967296

/-- Byte `m` of the caller's buffer after a read into one that held `held`. -/
def dumpByte (F : Mem) (offset size : Int) (held : Mem) (m : Nat) : UInt8 :=
  if (m : Int) < size then F (toUint32 (offset + (m / 248 * 248 : Nat)) + m % 248) else held m

/-! ### Reading -/

section

variable {F held : Mem} {offset size : Int}

/-- What is known before the chunk at `i`. -/
structure ReadSoFar (F : Mem) (offset size : Int) (held : Mem) (i : Nat) (bytes : Mem) : Prop where
  chunk : i % 248 = 0
  defined : ∀ j < i, ChunkAt size j → ¬ OverflowsAt offset j
  bytes : ∀ m, bytes m = if m < i then dumpByte F offset size held m else held m

theorem ReadSoFar.next {i : Nat} {bytes buf : Mem} (h : ReadSoFar F offset size held i bytes)
    (hlt : i < size) (hover : ¬ OverflowsAt offset i)
    (hbuf : ∀ j < chunkSize size i, buf j = F (toUint32 (offset + i) + j)) :
    ReadSoFar F offset size held (i + 248) (bytes.copy i buf (chunkSize size i)) := by
  have hchunk := h.chunk
  have hsize := chunkSize_eq hlt
  refine ⟨by omega, fun j hj hat => ?_, fun m => ?_⟩
  · by_cases hji : j < i
    · exact h.defined j hji hat
    · have hmod := hat.1
      rwa [show j = i by omega]
  by_cases hin : i ≤ m ∧ m < i + chunkSize size i
  · obtain ⟨j, rfl⟩ : ∃ j, m = i + j := ⟨m - i, by omega⟩
    have hj : j < chunkSize size i := by omega
    rw [Mem.copy_in _ _ hj, hbuf j hj, if_pos (by omega), dumpByte, if_pos (by omega),
      show (i + j) / 248 * 248 = i by omega, show (i + j) % 248 = j by omega]
  · rw [Mem.copy_out _ _ (by omega), h.bytes]
    by_cases hlow : m < i
    · rw [if_pos hlow, if_pos (by omega)]
    · rw [if_neg hlow]
      split
      · rw [dumpByte, if_neg (by omega)]
      · rfl

theorem into_fromFlash {i : Nat} {r : Reply} (buf : Mem)
    (hr : FromFlash F (replied (readRequest offset size i) r)) :
    0 ≤ r.rv ∧
      ∀ j < chunkSize size i, r.into buf (chunkSize size i) j = F (toUint32 (offset + i) + j) := by
  have hreply := hr rfl
  rw [readRequest_address] at hreply
  subst hreply
  refine ⟨Int.natCast_nonneg _, fun j hj => ?_⟩
  have hget := @into_of_complete ⟨(chunkSize size i : Int),
    (F.drop (toUint32 (offset + i))).toList (chunkSize size i)⟩ buf _ _ (Mem.toList_length _ _) hj
  have hbyte : ((F.drop (toUint32 (offset + i))).toList (chunkSize size i))[j]? =
      some (F (toUint32 (offset + i) + j)) := by
    rw [Mem.toList, List.getElem?_map, List.getElem?_range hj]
    rfl
  exact Option.some.inj (hget.symm.trans hbyte)

/-- The program stops for an overflow only. -/
def OnlyOverflow (offset size : Int) (r : Halt) : Prop := r = .fault ∧ Overflows offset size

theorem holds_flashRead {G : Event Services → Prop} (hG : ∀ e, G e → FromFlash F e) (buffer : Buf)
    (hoffset : -2147483648 ≤ offset) (hsize : size ≤ buffer.size) :
    Prog.Holds (OnlyOverflow offset size) G (fun e => handedOver [e] = [])
      (fun r => 0 ≤ r.1 ∧ ¬ Overflows offset size ∧
        ∀ m, r.2.bytes m = dumpByte F offset size buffer.bytes m)
      (flashRead offset size buffer 0) := by
  refine Prog.Holds.loop_lt (I := fun s : Int × Mem × Buf => s.2.2.size = buffer.size ∧
    ∃ i : Nat, s.1 = i ∧ ReadSoFar F offset size buffer.bytes i s.2.2.bytes)
    (fun s => (size - s.1).toNat) ?_ _ _
    ⟨rfl, 0, rfl, by omega, fun j hj => by omega, fun m => by rw [if_neg (Nat.not_lt_zero m)]⟩
    (by simp only []; omega)
  rintro ⟨_, buf, b⟩ ⟨hcap, i, rfl, h⟩
  have hb : b.size = buffer.size := hcap
  unfold flashReadRound
  simp only []
  by_cases hlt : (i : Int) < size
  · rw [if_pos hlt]
    have hover (hat : OverflowsAt offset i) : OnlyOverflow offset size .fault :=
      ⟨rfl, i, ⟨h.chunk, hlt⟩, hat⟩
    refine (holds_addInt_cases (Q := fun a => a = offset + i ∧ offset + i ≤ 2147483647)
      (fun hout => hover (.inl (by omega))) fun hle => ⟨rfl, hle⟩).bind ?_
    rintro _ ⟨rfl, hle⟩
    refine Prog.Holds.perform_bind fun r => ⟨rfl, fun hr => ?_⟩
    obtain ⟨hrv, hinto⟩ := into_fromFlash buf (hG _ hr)
    have hchunk := chunkSize_eq hlt
    have hfits : 0 + (i : Int).toNat + toUint32 (min (size - i) gEcMaxResponse) ≤ b.size := by
      change 0 + (i : Int).toNat + chunkSize size i ≤ b.size
      omega
    rw [if_neg (by omega), Buf.copyIn_of_le _ hfits, pure_bind]
    generalize hmax : (gEcMaxResponse : Int) = chunk
    rw [gEcMaxResponse_eq] at hmax
    refine (holds_addInt_cases
      (Q := fun a => a = ((i + 248 : Nat) : Int) ∧ (i : Int) + 248 ≤ 2147483647)
      (fun hout => hover (.inr (by omega))) fun hle => ⟨by omega, by omega⟩).bind ?_
    rintro _ ⟨rfl, hle'⟩
    refine ⟨⟨hb, i + 248, rfl, ?_⟩, by simp only []; omega⟩
    have hdefined : ¬ OverflowsAt offset i := by
      rintro (hat | hat)
      · omega
      · omega
    simp only [Int.toNat_natCast, Nat.zero_add, ← hmax]
    exact h.next hlt hdefined hinto
  · rw [if_neg hlt]
    refine ⟨Int.le_refl 0, ?_, fun m => ?_⟩
    · rintro ⟨j, hchunk, hover⟩
      exact h.defined j (by have := hchunk.2; omega) hchunk hover
    · rw [h.bytes]
      split
      · rfl
      · rw [dumpByte, if_neg (by omega)]

end

/-! ### The command -/

theorem toInt32_bounds (v : UInt64) : -2147483648 ≤ toInt32 v ∧ toInt32 v ≤ v.toNat := by
  rw [toInt32_eq]
  split <;> omega

theorem toUint32_toInt32_add (offset : UInt64) (i : Nat) :
    toUint32 (toInt32 offset + i) = (offset.toNat + i) % 4294967296 := by
  rw [toInt32_eq, toUint32]
  split <;> omega

theorem handedOver_append (t u : Trace Services) : handedOver (t ++ u) = handedOver t ++ handedOver u :=
  List.flatMap_append

theorem handedOver_nil {t : Trace Services} (h : ∀ e ∈ t, handedOver [e] = []) : handedOver t = [] := by
  refine List.flatMap_eq_nil_iff.2 fun e he => ?_
  have hone := h e he
  rwa [handedOver, List.flatMap_singleton] at hone

section

variable {F : Mem} {offset size : UInt64} {argv : List String} {t w : Trace Services}

/-- The file was given what a read makes of the flash and of what the allocation held. -/
structure DumpedAs (F : Mem) (offset size : UInt64) (t : Trace Services) : Prop where
  defined : ¬ Overflows (toInt32 offset) (toInt32 size)
  bytes : ∃ held, ⟨.allocatePool .flashBuffer size, some held⟩ ∈ t ∧
    handedOver t = Mem.toList (dumpByte F (toInt32 offset) (toInt32 size) held) size.toNat

theorem DumpedAs.append (h : DumpedAs F offset size t) (hw : handedOver w = []) :
    DumpedAs F offset size (t ++ w) := by
  obtain ⟨held, hmem, hbytes⟩ := h.bytes
  refine ⟨h.defined, held, List.mem_append_left w hmem, ?_⟩
  rw [handedOver_append, hw, List.append_nil, hbytes]

/-- What the command returns at an exit. -/
def FlashreadExit.status : FlashreadExit → EfiStatus
  | .ecOut _ rv status => if rv < 0 then efiDeviceError else status
  | .out _ status => status

theorem holds_flashreadFinish {H : Halt → Prop} {G : Event Services → Prop} (e : FlashreadExit) :
    Prog.Holds H G (fun e => handedOver [e] = []) (· = e.status)
      (flashreadFinish e) := by
  have hout (held : FlashreadHeld) (status : EfiStatus) :
      Prog.Holds H G (fun e => handedOver [e] = []) (· = status)
        (flashreadOut held status) := by
    obtain ⟨unlocked, file, buffer⟩ := held
    cases unlocked <;> cases file <;> cases buffer <;>
      simp [flashreadOut, flashNotified, sendCommand, shellCloseFile, freePool, Prog.Holds, Prog.bind_def,
        Prog.bind, Prog.perform, Prog.pure_def, handedOver]
  cases e with
  | ecOut held rv status => exact hout held _
  | out held status => exact hout held status

theorem along_flashreadPrepare :
    Attempt.Along (OnlyOverflow (toInt32 offset) (toInt32 size))
      (fun e => FromFlash F e ∧ ParsedAs argv offset size e) (fun _ _ => True)
      (fun e _ => e.status ≠ efiSuccess)
      (fun plan t => plan.offset = offset ∧ plan.size = size ∧ handedOver t = [] ∧
        ⟨.allocatePool .flashBuffer size, some plan.flashBuffer⟩ ∈ t)
      (flashreadPrepare argv) [] := by
  unfold flashreadPrepare
  refine Attempt.Along.leaveIf_bind (fun _ => (by decide : efiInvalidParameter ≠ efiSuccess)) fun _ => ?_
  refine Attempt.Along.perform_bind fun v => ⟨trivial, fun hv => ?_⟩
  refine Attempt.Along.perform_bind fun v' => ⟨trivial, fun hv' => ?_⟩
  obtain rfl : v = offset := hv.2.1 rfl
  obtain rfl : v' = size := hv'.2.2 rfl
  refine Attempt.Along.perform_bind fun buffer => ⟨trivial, fun _ => ?_⟩
  cases buffer with
  | none => exact Attempt.along_throw (by decide : efiNotReady ≠ efiSuccess)
  | some held =>
    refine Attempt.Along.perform_bind fun status => ⟨trivial, fun _ => ?_⟩
    refine Attempt.Along.leaveIf_bind ne_success_of_error fun _ => ?_
    exact Attempt.along_pure ⟨rfl, rfl, rfl, by simp⟩

theorem along_flashreadTransfer {plan : FlashreadPlan} (hoffset : plan.offset = offset)
    (hsize : plan.size = size) (hnone : handedOver t = [])
    (hheld : ⟨.allocatePool .flashBuffer size, some plan.flashBuffer⟩ ∈ t) :
    Attempt.Along (OnlyOverflow (toInt32 offset) (toInt32 size))
      (fun e => FromFlash F e ∧ ParsedAs argv offset size e) (fun _ _ => True)
      (fun e _ => e.status ≠ efiSuccess) (fun _ t => DumpedAs F offset size t)
      (flashreadTransfer plan) t := by
  obtain ⟨offset', size', held⟩ := plan
  obtain rfl : offset = offset' := hoffset.symm
  obtain rfl : size = size' := hsize.symm
  unfold flashreadTransfer
  have hread := holds_flashRead (G := fun e => FromFlash F e ∧ ParsedAs argv offset size e) (fun _ h => h.1)
    ⟨held, size.toNat⟩ (toInt32_bounds offset).1 (toInt32_bounds size).2
  refine (Attempt.along_lift (hread.along t fun _ _ _ _ => trivial)).bind ?_
  rintro ⟨rv, flashBuffer⟩ _ ⟨w, rfl, -, hw, hrv, hdefined, hbytes⟩
  refine Attempt.Along.leaveIf_bind (fun hneg => absurd hneg (by omega)) fun _ => ?_
  refine Attempt.Along.perform_bind fun status => ⟨trivial, fun _ => ?_⟩
  have hdumped : DumpedAs F offset size
      (t ++ w ++ [⟨ServiceOp.shellWriteFile size flashBuffer.bytes, status⟩]) := by
    refine ⟨hdefined, held, by simp [hheld], ?_⟩
    rw [handedOver_append, handedOver_append, hnone, handedOver_nil hw, ← funext hbytes]
    simp [handedOver]
  refine Attempt.Along.leaveIf_bind ne_success_of_error fun _ => ?_
  refine Attempt.Along.perform_bind fun status' => ⟨trivial, fun _ => ?_⟩
  refine Attempt.Along.leaveIf_bind ne_success_of_error fun _ => ?_
  exact Attempt.along_pure (hdumped.append rfl)

theorem along_cmdFlashread :
    Prog.Along (OnlyOverflow (toInt32 offset) (toInt32 size))
      (fun e => FromFlash F e ∧ ParsedAs argv offset size e) (fun _ _ => True)
      (fun status t => status = efiSuccess → DumpedAs F offset size t) (cmdFlashread argv) [] := by
  have hbody : Attempt.Along (OnlyOverflow (toInt32 offset) (toInt32 size))
      (fun e => FromFlash F e ∧ ParsedAs argv offset size e) (fun _ _ => True)
      (fun e _ => e.status ≠ efiSuccess) (fun _ t => DumpedAs F offset size t)
      (flashread argv) [] := by
    refine along_flashreadPrepare.bind fun plan t ⟨hoffset, hsize, hnone, hheld⟩ => ?_
    refine Attempt.Along.perform_bind fun r => ⟨trivial, fun _ => ?_⟩
    refine Attempt.Along.leaveIf_bind (fun hneg => ?_) fun _ => ?_
    · simp only [FlashreadExit.status, if_pos hneg]
      decide
    · refine along_flashreadTransfer hoffset hsize ?_ (List.mem_append_left _ hheld)
      rw [handedOver_append, hnone]
      rfl
  unfold cmdFlashread
  refine Prog.Along.bind hbody fun r t hr => ?_
  cases r with
  | error e =>
    refine ((holds_flashreadFinish e).along t fun _ _ _ _ => trivial).post ?_
    rintro status _ ⟨w, rfl, -, -, rfl⟩ hsuccess
    exact absurd hsuccess hr
  | ok e =>
    refine ((holds_flashreadFinish e).along t fun _ _ _ _ => trivial).post ?_
    rintro status _ ⟨w, rfl, -, hw, rfl⟩ -
    exact DumpedAs.append hr (handedOver_nil hw)

end

/-! ### A desk where everything goes well -/

/-- The answers of a shell, an allocator and an EC with the flash `F` that refuse nothing. -/
def dumpDesk (F : Mem) (allocated : Option Mem) (offset size : UInt64) : (op : ServiceOp) → op.Ans
  | .sendCommand c =>
    if c.command = ecCmdFlashRead then
      ⟨c.insize, (F.drop ((Mem.ofList c.outdata).le32 0)).toList c.insize⟩
    else ⟨0, []⟩
  | .readMemory .. => fun _ => 0
  | .shellOpenFileByName _ => efiSuccess
  | .shellGetFileInfo => none
  | .shellReadFile size => (efiSuccess, size)
  | .shellWriteFile .. => efiSuccess
  | .shellCloseFile => efiSuccess
  | .shellStrToUintn text => if text = "OFFSET" then offset else size
  | .allocatePool .. => allocated
  | .freePool _ => ()
  | .readKeyStroke => efiNotReady
  | .stall _ => ()
  | .indeterminate => fun _ => 0

def dumpArgv : List String := ["flashread", "OFFSET", "SIZE", "FILE"]

section

variable {F held : Mem} {allocated : Option Mem} {offset size : UInt64}

/-- An event of a run at the desk. -/
def AtDesk (F : Mem) (allocated : Option Mem) (offset size : UInt64) (e : Event Services) : Prop :=
  e.ans = dumpDesk F allocated offset size e.op

theorem dumpDesk_fromFlash {e : Event Services} (h : AtDesk F allocated offset size e) :
    FromFlash F e := by
  obtain ⟨op, x⟩ := e
  cases op <;> try trivial
  intro hread
  exact Eq.trans h (if_pos hread)

theorem dumpDesk_parsedAs {e : Event Services} (h : AtDesk F allocated offset size e) :
    ParsedAs dumpArgv offset size e := by
  obtain ⟨op, x⟩ := e
  cases op <;> try trivial
  refine ⟨?_, ?_⟩
  · rintro rfl
    exact h
  · rintro rfl
    exact h

theorem holds_flashreadPrepare_desk {H : Halt → Prop} :
    Attempt.Holds H (AtDesk F (some held) offset size) (fun _ => True) (fun _ => False)
      (· = ⟨offset, size, held⟩) (flashreadPrepare dumpArgv) := by
  unfold flashreadPrepare
  refine Attempt.Holds.leaveIf_bind (fun hshort => absurd hshort (by decide)) fun _ => ?_
  refine Attempt.Holds.perform_bind fun v => ⟨trivial, fun hv => ?_⟩
  refine Attempt.Holds.perform_bind fun v' => ⟨trivial, fun hv' => ?_⟩
  obtain rfl : v = offset := hv
  obtain rfl : v' = size := hv'
  refine Attempt.Holds.perform_bind fun buffer => ⟨trivial, fun hbuffer => ?_⟩
  obtain rfl : buffer = some held := hbuffer
  refine Attempt.Holds.perform_bind fun status => ⟨trivial, fun hstatus => ?_⟩
  obtain rfl : status = efiSuccess := hstatus
  exact Attempt.Holds.leaveIf_bind (fun herror => absurd herror (by decide)) fun _ =>
    Attempt.holds_pure rfl

theorem holds_flashreadTransfer_desk :
    Attempt.Holds (OnlyOverflow (toInt32 offset) (toInt32 size)) (AtDesk F allocated offset size)
      (fun _ => True) (fun _ => False) (fun e => e.status = efiSuccess)
      (flashreadTransfer ⟨offset, size, held⟩) := by
  have hread := (holds_flashRead (F := F) (G := AtDesk F allocated offset size)
    (fun _ => dumpDesk_fromFlash) ⟨held, size.toNat⟩ (toInt32_bounds offset).1
    (toInt32_bounds size).2).mono (fun _ _ => trivial) fun _ h => h.1
  unfold flashreadTransfer
  refine (Attempt.holds_lift hread).bind ?_
  rintro ⟨rv, flashBuffer⟩ hrv
  refine Attempt.Holds.leaveIf_bind (fun hneg => absurd hneg (by omega)) fun hpos => ?_
  refine Attempt.Holds.perform_bind fun status => ⟨trivial, fun hstatus => ?_⟩
  obtain rfl : status = efiSuccess := hstatus
  refine Attempt.Holds.leaveIf_bind (fun herror => absurd herror (by decide)) fun _ => ?_
  refine Attempt.Holds.perform_bind fun status => ⟨trivial, fun hstatus => ?_⟩
  obtain rfl : status = efiSuccess := hstatus
  refine Attempt.Holds.leaveIf_bind (fun herror => absurd herror (by decide)) fun _ => ?_
  exact Attempt.holds_pure (if_neg hpos)

theorem holds_cmdFlashread_desk :
    Prog.Holds (OnlyOverflow (toInt32 offset) (toInt32 size)) (AtDesk F (some held) offset size)
      (fun _ => True) (· = efiSuccess) (cmdFlashread dumpArgv) := by
  have hbody : Attempt.Holds (OnlyOverflow (toInt32 offset) (toInt32 size))
      (AtDesk F (some held) offset size) (fun _ => True) (fun _ => False)
      (fun e => e.status = efiSuccess) (flashread dumpArgv) := by
    refine holds_flashreadPrepare_desk.bind ?_
    rintro _ rfl
    refine Attempt.Holds.perform_bind fun r => ⟨trivial, fun hr => ?_⟩
    obtain rfl : r = ⟨0, []⟩ := hr
    exact Attempt.Holds.leaveIf_bind (fun hneg => absurd hneg (by decide)) fun _ =>
      holds_flashreadTransfer_desk
  unfold cmdFlashread
  refine Prog.Holds.bind hbody fun r hr => ?_
  cases r with
  | error e => exact hr.elim
  | ok e =>
    refine (holds_flashreadFinish e).mono (fun _ _ => trivial) ?_
    rintro status rfl
    exact hr

theorem cmdFlashread_desk (F held : Mem) (offset size : UInt64) : ∃ t o, Run (cmdFlashread dumpArgv) t o ∧
    (∀ e ∈ t, AtDesk F (some held) offset size e) ∧
    (o = .done efiSuccess ∨ o = .halted .fault ∧ Overflows (toInt32 offset) (toInt32 size)) := by
  have hrun := Prog.run_transcript (dumpDesk F (some held) offset size) (cmdFlashread dumpArgv)
  have hdesk : ∀ e ∈ (cmdFlashread dumpArgv).transcript (dumpDesk F (some held) offset size),
      AtDesk F (some held) offset size e := fun e => Prog.ans_of_transcript
  obtain ⟨-, hdone, hhalted⟩ := holds_cmdFlashread_desk.run hrun hdesk
  refine ⟨_, _, hrun, hdesk, ?_⟩
  cases ho : (cmdFlashread dumpArgv).outcome (dumpDesk F (some held) offset size) with
  | done status => exact .inl (congrArg _ (hdone status ho))
  | halted r =>
    obtain ⟨rfl, hover⟩ := hhalted r ho
    exact .inr ⟨rfl, hover⟩
  | running => exact absurd ho (Prog.outcome_ne_running _ _)

end

/-! ### When the promise is kept -/

section

variable {F held : Mem} {offset size : UInt64}

theorem dumpByte_of_inRange (h : InRange offset size) {m : Nat} (hm : m < size.toNat) :
    dumpByte F (toInt32 offset) (toInt32 size) held m = F (offset.toNat + m) := by
  have hsize : toInt32 size = size.toNat := by
    have hlt := h.1
    rw [toInt32_eq]
    split <;> omega
  have hchunk := h.2 (m / 248 * 248) ⟨by omega, by omega⟩
  rw [dumpByte, if_pos (by omega), toUint32_toInt32_add, Nat.mod_eq_of_lt hchunk]
  congr 1
  omega

/-- Where the size or an address does not fit, some flash and some allocation make a difference. -/
theorem exists_dumpByte_ne (h : ¬ InRange offset size) : ∃ (F held : Mem) (m : Nat), m < size.toNat ∧
    dumpByte F (toInt32 offset) (toInt32 size) held m ≠ F (offset.toNat + m) := by
  let F : Mem := fun a => if a < 4294967296 then 1 else 0
  refine ⟨F, fun m => F (offset.toNat + m) + 1, ?_⟩
  by_cases hlt : size.toNat < 2147483648
  · -- a chunk begins beyond the last address
    obtain ⟨i, hchunk, hbeyond⟩ : ∃ i, ChunkAt size.toNat i ∧ 4294967296 ≤ offset.toNat + i := by
      by_contra hno
      refine h ⟨hlt, fun i hchunk => ?_⟩
      by_contra hbeyond
      exact hno ⟨i, hchunk, by omega⟩
    have hi := hchunk.1
    have hsize := hchunk.2
    refine ⟨i, by omega, ?_⟩
    rw [dumpByte, if_pos (by rw [toInt32_eq]; split <;> omega), toUint32_toInt32_add]
    simp only [F]
    rw [if_pos (by omega), if_neg (by omega)]
    decide
  · -- the read ends before the size
    refine ⟨(toInt32 size).toNat, ?_, ?_⟩
    · rw [toInt32_eq]
      split <;> omega
    · rw [dumpByte, if_neg (by omega)]
      simp only [F]
      split <;> decide

theorem handedOver_of_inRange {t : Trace Services} (h : InRange offset size) (ht : DumpedAs F offset size t) :
    handedOver t = (F.drop offset.toNat).toList size.toNat := by
  obtain ⟨held, -, hbytes⟩ := ht.bytes
  rw [hbytes]
  exact Mem.toList_congr fun m hm => dumpByte_of_inRange h hm

/-- No text is refused, for the tests are of unsigned numbers. -/
theorem parsed_of_complete {mayOverflow : Bool} (h : DumpComplete mayOverflow offset size) :
    offset ≠ unparsable ∧ size ≠ unparsable := by
  by_contra hparsed
  have hunparsable : offset = unparsable ∨ size = unparsable := by tauto
  have hrun : Run (cmdFlashread dumpArgv) _ (.done efiNotReady) :=
    Prog.run_transcript (dumpDesk (fun _ => 0) none offset size) (cmdFlashread dumpArgv)
  have hrefused := (h (fun _ => 0) dumpArgv _ _ hrun
    (fun e he => dumpDesk_fromFlash (Prog.ans_of_transcript he))
    (fun e he => dumpDesk_parsedAs (Prog.ans_of_transcript he))).refused hunparsable
  exact absurd (hrefused.2 _ rfl) (by decide)

theorem inRange_of_complete {mayOverflow : Bool} (h : DumpComplete mayOverflow offset size)
    (hover : ¬ Overflows (toInt32 offset) (toInt32 size)) : InRange offset size := by
  by_contra hrange
  obtain ⟨F, held, m, hm, hne⟩ := exists_dumpByte_ne hrange
  obtain ⟨t, o, hrun, hdesk, ho⟩ := cmdFlashread_desk F held offset size
  have hF : ∀ e ∈ t, FromFlash F e := fun e he => dumpDesk_fromFlash (hdesk e he)
  have hP : ∀ e ∈ t, ParsedAs dumpArgv offset size e := fun e he => dumpDesk_parsedAs (hdesk e he)
  rcases ho with rfl | ⟨-, hyes⟩
  · have hcomplete := (h F dumpArgv t _ hrun hF hP).complete rfl
    obtain ⟨-, hdone, -⟩ := along_cmdFlashread.run hrun fun e he => ⟨hF e he, hP e he⟩
    obtain ⟨held', hmem, hbytes⟩ := (hdone _ rfl rfl).bytes
    obtain rfl : held' = held := Option.some.inj (hdesk _ hmem)
    rw [List.nil_append, hcomplete] at hbytes
    have hbyte := congrArg (fun l => Mem.ofList l m) hbytes
    simp only [Mem.ofList_toList _ hm] at hbyte
    exact hne hbyte.symm
  · exact hover hyes

end

theorem cmdFlashread_complete_iff (mayOverflow : Bool) (offset size : UInt64) :
    DumpComplete mayOverflow offset size ↔
      (offset ≠ unparsable ∧ size ≠ unparsable) ∧
        (Overflows (toInt32 offset) (toInt32 size) → mayOverflow = true) ∧
        (¬ Overflows (toInt32 offset) (toInt32 size) → InRange offset size) := by
  constructor
  · refine fun h => ⟨parsed_of_complete h, fun hover => ?_, inRange_of_complete h⟩
    obtain ⟨t, o, hrun, hdesk, ho⟩ := cmdFlashread_desk (fun _ => 0) (fun _ => 0) offset size
    have hF : ∀ e ∈ t, FromFlash (fun _ => 0) e := fun e he => dumpDesk_fromFlash (hdesk e he)
    have hP : ∀ e ∈ t, ParsedAs dumpArgv offset size e := fun e he => dumpDesk_parsedAs (hdesk e he)
    rcases ho with rfl | ⟨rfl, -⟩
    · obtain ⟨-, hdone, -⟩ := along_cmdFlashread.run hrun fun e he => ⟨hF e he, hP e he⟩
      exact absurd hover (hdone _ rfl rfl).defined
    · exact (h _ dumpArgv t _ hrun hF hP).defined rfl
  · rintro ⟨⟨hoffset, hsize⟩, hover, hrange⟩ F argv t o hrun hF hP
    obtain ⟨-, hdone, hhalted⟩ := along_cmdFlashread.run hrun fun e he => ⟨hF e he, hP e he⟩
    refine ⟨?_, fun hunparsable => (hunparsable.elim hoffset hsize).elim, ?_⟩
    · rintro rfl
      have hdumped := hdone _ rfl rfl
      exact handedOver_of_inRange (hrange hdumped.defined) hdumped
    · rintro rfl
      exact hover (hhalted _ rfl).2

/-- Four gigabytes are reported as dumped though nothing was read; a text that is no number is taken. -/
theorem flashread_unread :
    ¬ DumpComplete true 0 0x100000000 ∧ ¬ DumpComplete true unparsable 1 ∧
      ¬ DumpComplete true 0 unparsable := by
  refine ⟨fun h => ?_, fun h => (parsed_of_complete h).1 rfl, fun h => (parsed_of_complete h).2 rfl⟩
  have hnone : ¬ Overflows (toInt32 0) (toInt32 0x100000000) := by
    rintro ⟨i, ⟨-, hi⟩, -⟩
    rw [show toInt32 0x100000000 = 0 from rfl] at hi
    omega
  exact absurd (inRange_of_complete h hnone).1 (by decide)

end FrameworkHacks.ECTool
