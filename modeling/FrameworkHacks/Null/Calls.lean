import FrameworkHacks.Null.Commands

/-!
# Calls of the simulator

What a call promises any caller (`KeepsContract`): at most `insize` bytes stored, a value that is an
error or at most `insize`, and no access outside the parameters or the flash. Each handler computes its
own lengths; for each command but `GET_VERSION` there is a lemma that says when it keeps the promise,
and for the flash commands one that says what they answer then.
-/

namespace FrameworkHacks.Null

open Effects

/-- The arguments of `SendCommand`: `outdata` is an object of `outsize` bytes, `insize` the size of the
response buffer. The version is not looked at. -/
structure Request where
  command : Nat
  outdata : List UInt8
  insize : UInt64

namespace Request

variable (ec : NullEc) (r : Request)

/-- `p->offset` and `p->size` of the flash commands. -/
def offset : Nat := (Mem.ofList r.outdata).le32 0

def size : Nat := (Mem.ofList r.outdata).le32 4

def params : Buf := ⟨Mem.ofList r.outdata, r.outdata.length⟩

/-- The call. -/
def reply : Except Halt Answer := answer ec r.command r.outdata r.insize.toNat

/-- The call stays inside the parameters, the response buffer and the flash, and its value is an error
or fits the buffer. -/
structure Kept (a : Answer) : Prop where
  stored : a.response.length ≤ r.insize.toNat
  value : a.rv < 0 ∨ a.rv ≤ r.insize.toNat

def KeepsContract : Prop := ∃ a, r.reply ec = .ok a ∧ r.Kept a

end Request

/-- A range without bytes is never accessed. -/
def InFlash (offset size : Nat) : Prop := size = 0 ∨ offset + size ≤ gFlashLen

/-! ### Calls -/

section

variable {ec : NullEc} {r : Request}

theorem reply_of_pure {a : Answer} (h : ecSendCommandNullLpc ec r.command r.outdata r.insize.toNat = pure a) :
    r.reply ec = .ok a := by
  rw [Request.reply, answer, h]
  rfl

theorem reply_of_fault (h : ecSendCommandNullLpc ec r.command r.outdata r.insize.toNat = .fault) :
    r.reply ec = .error .fault := by
  rw [Request.reply, answer, h]
  rfl

theorem reply_of_stall {a : Answer} (usec : Nat)
    (h : ecSendCommandNullLpc ec r.command r.outdata r.insize.toNat = stall usec >>= fun _ => pure a) :
    r.reply ec = .ok a := by
  rw [Request.reply, answer, h]
  rfl

theorem keepsContract_of_ok {a : Answer} (h : r.reply ec = .ok a) : r.KeepsContract ec ↔ r.Kept a := by
  constructor
  · rintro ⟨b, hb, hkept⟩
    rw [h] at hb
    cases hb
    exact hkept
  · exact fun hkept => ⟨a, h, hkept⟩

theorem not_keepsContract (h : r.reply ec = .error .fault) : ¬r.KeepsContract ec := by
  rintro ⟨a, ha, -⟩
  rw [h] at ha
  cases ha

/-- What a call that depends on a condition makes of the contract. -/
theorem keepsContract_iff {a : Answer} {c : Prop} (hok : c → r.reply ec = .ok a)
    (hfault : ¬c → r.reply ec = .error .fault) : r.KeepsContract ec ↔ c ∧ r.Kept a := by
  by_cases hc : c
  · rw [keepsContract_of_ok (hok hc)]
    exact (and_iff_right hc).symm
  · exact iff_of_false (not_keepsContract (hfault hc)) fun h => hc h.1

theorem copyToResponse_of_not {responseSize start : Nat} {src : Buf} {n : Int}
    (h : ¬(toUintn n ≤ responseSize ∧ (toUintn n = 0 ∨ start + toUintn n ≤ src.size))) :
    copyToResponse responseSize src start n = .fault := if_neg h

/-- A response of more than half the address space is taken for a negative one. -/
theorem toUintn_of_huge {n : Nat} (h : 0x8000000000000000 ≤ n) (hn : n < 0x10000000000000000) (k : Nat) :
    toUintn (min (toIntn n) k) = n := by
  unfold toIntn toUintn
  rw [if_neg (by omega)]
  omega

/-! ### The fixed responses -/

theorem call_buildInfo (h : r.command = ecCmdGetBuildInfo) :
    ecSendCommandNullLpc ec r.command r.outdata r.insize.toNat =
      implGetBuildInfo ec r.params r.insize.toNat := by
  rw [h]
  rfl

theorem contract_buildInfo (h : r.command = ecCmdGetBuildInfo) :
    r.KeepsContract ec ↔ 20 ≤ r.insize.toNat ∧ r.insize.toNat < 0x8000000000000000 := by
  have hlt := r.insize.toNat_lt
  rw [keepsContract_iff (c := r.insize.toNat < 0x8000000000000000)
    (a := ⟨20, ((Mem.ofList buildInfo).drop 0).toList (min r.insize.toNat 20), ec⟩)]
  · constructor
    · rintro ⟨hsmall, hkept⟩
      refine ⟨?_, hsmall⟩
      have hvalue := hkept.value
      simp only [] at hvalue
      omega
    · rintro ⟨hfits, hsmall⟩
      refine ⟨hsmall, ?_, .inr ?_⟩
      · rw [Mem.toList_length]
        exact Nat.min_le_left _ _
      · simp only []
        omega
  · intro hsmall
    apply reply_of_pure
    have hmin : min (toIntn r.insize.toNat) 20 = ((min r.insize.toNat 20 : Nat) : Int) := by
      rw [toIntn_of_lt hsmall]
      omega
    rw [call_buildInfo h, implGetBuildInfo, hmin,
      copyToResponse_of_le (by omega) (Nat.min_le_left _ _) (by simp only []; omega), pure_bind]
  · intro hhuge
    apply reply_of_fault
    have hlength : toUintn (min (toIntn r.insize.toNat) 20) = r.insize.toNat :=
      toUintn_of_huge (by omega) hlt 20
    rw [call_buildInfo h, implGetBuildInfo, copyToResponse_of_not (by rw [hlength]; simp only []; omega)]
    rfl

theorem contract_flashInfo (h : r.command = ecCmdFlashInfo) :
    r.KeepsContract ec ↔ 24 ≤ r.insize.toNat := by
  have hcall : ecSendCommandNullLpc ec r.command r.outdata r.insize.toNat =
      implFlashInfo ec r.params r.insize.toNat := by rw [h]; rfl
  rw [keepsContract_iff (c := 24 ≤ r.insize.toNat) (a := ⟨24, flashInfoResp, ec⟩)]
  · refine and_iff_left_of_imp fun hfits => ⟨hfits, .inr ?_⟩
    simp only []
    omega
  · intro hfits
    rw [Request.reply, h]
    exact answer_flashInfo hfits
  · intro hsmall
    apply reply_of_fault
    rw [hcall, implFlashInfo, copyToResponse_of_not fun hcopy => hsmall hcopy.1]
    rfl

/-! ### The flash commands -/

/-- The parameters are all there. -/
def Request.HasParams (r : Request) : Prop := 8 ≤ r.outdata.length

theorem load_params (h : r.HasParams) :
    loadLe32 (m := Prog Boot) r.params.load 0 = pure r.offset ∧
      loadLe32 (m := Prog Boot) r.params.load 4 = pure r.size := by
  unfold Request.HasParams at h
  exact ⟨loadLe32_of_le (by simp only [Request.params]; omega),
    loadLe32_of_le (by simp only [Request.params]; omega)⟩

theorem load_params_fault {α : Type} (h : ¬r.HasParams) (f : Nat → Nat → Prog Boot α) :
    (loadLe32 (m := Prog Boot) r.params.load 0 >>= fun offset =>
      loadLe32 (m := Prog Boot) r.params.load 4 >>= fun size => f offset size) = .fault := by
  unfold Request.HasParams at h
  rw [loadLe32_eq r.params 0]
  split
  · rw [pure_bind, loadLe32_eq r.params 4, if_neg (by simp only [Request.params]; omega)]
    rfl
  · rfl

theorem call_flashRead (h : r.command = ecCmdFlashRead) :
    ecSendCommandNullLpc ec r.command r.outdata r.insize.toNat =
      implFlashRead ec r.params r.insize.toNat := by
  rw [h]
  rfl

/-- How much `FLASH_READ` returns. -/
def Request.readSize (r : Request) : Nat := min r.insize.toNat r.size

theorem Request.readSize_le (r : Request) : r.readSize ≤ r.insize.toNat := Nat.min_le_left _ _

theorem Request.size_lt (r : Request) : r.size < 4294967296 := Mem.le32_lt _ 4

theorem Request.offset_lt (r : Request) : r.offset < 4294967296 := Mem.le32_lt _ 0

/-- `FLASH_READ` stays inside. No buffer is larger than half the address space. -/
structure Request.ReadFits (r : Request) : Prop where
  params : r.HasParams
  insize : r.insize.toNat < 0x8000000000000000
  range : InFlash r.offset r.readSize

theorem reply_flashRead (h : r.command = ecCmdFlashRead) (hfits : r.ReadFits) :
    r.reply ec = .ok ⟨r.readSize, (ec.gMutableFlash.drop r.offset).toList r.readSize, ec⟩ := by
  have hsize := r.size_lt
  have hmin : min (toIntn r.insize.toNat) r.size = (r.readSize : Int) := by
    rw [toIntn_of_lt hfits.insize, Request.readSize]
    omega
  have hcopy : copyToResponse r.insize.toNat ec.flash r.offset (r.readSize : Int) =
      pure ((ec.gMutableFlash.drop r.offset).toList r.readSize) := by
    have hlength : toUintn (r.readSize : Int) = r.readSize :=
      toUintn_of_lt (by rw [Request.readSize]; omega)
    rw [copyToResponse, hlength]
    exact if_pos ⟨r.readSize_le, hfits.range⟩
  apply reply_of_stall 457
  obtain ⟨hoffset, hsize'⟩ := load_params hfits.params
  rw [call_flashRead h, implFlashRead, hoffset, pure_bind, hsize', pure_bind]
  simp only [hmin, hcopy, pure_bind]

theorem reply_flashRead_fault (h : r.command = ecCmdFlashRead) (hfits : ¬r.ReadFits) :
    r.reply ec = .error .fault := by
  apply reply_of_fault
  rw [call_flashRead h, implFlashRead]
  by_cases hparams : r.HasParams
  swap
  · exact load_params_fault hparams _
  obtain ⟨hoffset, hsize'⟩ := load_params hparams
  rw [hoffset, pure_bind, hsize', pure_bind]
  have hsize := r.size_lt
  have hlt := r.insize.toNat_lt
  by_cases hinsize : r.insize.toNat < 0x8000000000000000
  · have hmin : min (toIntn r.insize.toNat) r.size = (r.readSize : Int) := by
      rw [toIntn_of_lt hinsize, Request.readSize]
      omega
    have hlength : toUintn (r.readSize : Int) = r.readSize :=
      toUintn_of_lt (by rw [Request.readSize]; omega)
    simp only [hmin]
    rw [copyToResponse_of_not fun hcopy => hfits ⟨hparams, hinsize, by rw [hlength] at hcopy; exact hcopy.2⟩]
    rfl
  · have hlength : toUintn (min (toIntn r.insize.toNat) r.size) = r.insize.toNat :=
      toUintn_of_huge (by omega) hlt r.size
    simp only []
    rw [copyToResponse_of_not (by rw [hlength]; simp only [NullEc.flash, gFlashLen]; omega)]
    rfl

theorem contract_flashRead (h : r.command = ecCmdFlashRead) : r.KeepsContract ec ↔ r.ReadFits := by
  rw [keepsContract_iff (reply_flashRead h) (reply_flashRead_fault h)]
  refine and_iff_left_of_imp fun _ => ⟨?_, .inr ?_⟩
  · rw [Mem.toList_length]
    exact r.readSize_le
  · simp only []
    exact Int.ofNat_le.2 r.readSize_le

/-- `FLASH_WRITE` has its data and stays inside. -/
structure Request.WriteFits (r : Request) : Prop where
  params : r.HasParams
  data : 8 + r.size ≤ r.outdata.length
  range : InFlash r.offset r.size

/-- The flash after `FLASH_WRITE`. -/
def Request.written (r : Request) (flash : Mem) : Mem :=
  flash.program r.offset ((Mem.ofList r.outdata).drop 8) r.size

theorem call_flashWrite (h : r.command = ecCmdFlashWrite) :
    ecSendCommandNullLpc ec r.command r.outdata r.insize.toNat =
      implFlashWrite ec r.params r.insize.toNat := by
  rw [h]
  rfl

theorem reply_flashWrite (h : r.command = ecCmdFlashWrite) (hfits : r.WriteFits) :
    r.reply ec = .ok ⟨r.size, [], { ec with gMutableFlash := r.written ec.gMutableFlash }⟩ := by
  have hdata := hfits.data
  have hloop : Prog.forRange (flashWriteByte r.params r.offset) 0 r.size ec.flash =
      pure ⟨r.written ec.gMutableFlash, gFlashLen⟩ := by
    rcases hfits.range with hzero | hrange
    · rw [Request.written, hzero]
      simp only [Prog.forRange_zero, Mem.program_zero]
      rfl
    · have hrun : Prog.forRange (flashWriteByte r.params r.offset) 0 r.size
          ⟨ec.gMutableFlash.program r.offset (r.params.bytes.drop 8) 0, gFlashLen⟩ =
          pure ⟨ec.gMutableFlash.program r.offset (r.params.bytes.drop 8) (0 + r.size), gFlashLen⟩ :=
        forRange_flashWriteByte (by omega) (by decide) (by simp only [Request.params]; omega)
      rwa [Nat.zero_add, Mem.program_zero] at hrun
  apply reply_of_stall 457
  obtain ⟨hoffset, hsize'⟩ := load_params hfits.params
  rw [call_flashWrite h, implFlashWrite, hoffset, pure_bind, hsize', pure_bind, hloop, pure_bind]

/-- The loop leaves the flash or the data at the first byte that is outside. -/
theorem forRange_flashWriteByte_fault {params flash : Buf} {offset lo n : Nat}
    (hsize : flash.size = gFlashLen) (hoffset : offset + lo < 4294967296) (hn : 0 < n)
    (hout : gFlashLen < offset + (lo + n) ∨ params.size < 8 + (lo + n)) :
    Prog.forRange (flashWriteByte params offset) lo n flash = .fault := by
  induction n generalizing lo flash with
  | zero => omega
  | succ n ih =>
    rw [Prog.forRange_succ]
    by_cases hbyte : offset + lo < gFlashLen ∧ 8 + lo < params.size
    · obtain ⟨hflash, hparams⟩ := hbyte
      have hlen : gFlashLen = 1048576 := rfl
      rw [flashWriteByte_of_lt (by omega) (by omega) hparams, pure_bind]
      exact ih hsize (by omega) (by omega) (by omega)
    · have hfault : flashWriteByte params offset lo flash = .fault := by
        rw [flashWriteByte, Nat.mod_eq_of_lt hoffset]
        by_cases hflash : offset + lo < flash.size
        · have hload : (params.load (8 + lo) : Prog Boot UInt8) = .fault := if_neg (by omega)
          rw [Buf.load_of_lt hflash, pure_bind, hload]
          rfl
        · have hload : (flash.load (offset + lo) : Prog Boot UInt8) = .fault := if_neg hflash
          rw [hload]
          rfl
      rw [hfault]
      rfl

theorem reply_flashWrite_fault (h : r.command = ecCmdFlashWrite) (hfits : ¬r.WriteFits) :
    r.reply ec = .error .fault := by
  apply reply_of_fault
  rw [call_flashWrite h, implFlashWrite]
  by_cases hparams : r.HasParams
  swap
  · exact load_params_fault hparams _
  obtain ⟨hoffset, hsize'⟩ := load_params hparams
  have hlt := r.offset_lt
  have hpos : 0 < r.size := by
    by_contra hzero
    have hzero : r.size = 0 := by omega
    have hparams' : 8 ≤ r.outdata.length := hparams
    exact hfits ⟨hparams, by omega, .inl hzero⟩
  rw [hoffset, pure_bind, hsize', pure_bind, forRange_flashWriteByte_fault rfl (by omega) hpos]
  · rfl
  · by_contra hin
    simp only [Request.params] at hin
    exact hfits ⟨hparams, by omega, .inr (by omega)⟩

theorem contract_flashWrite (h : r.command = ecCmdFlashWrite) :
    r.KeepsContract ec ↔ r.WriteFits ∧ r.size ≤ r.insize.toNat := by
  rw [keepsContract_iff (reply_flashWrite h) (reply_flashWrite_fault h)]
  refine and_congr_right fun _ => ⟨fun hkept => ?_, fun hsize => ⟨Nat.zero_le _, .inr ?_⟩⟩
  · have hvalue := hkept.value
    simp only [] at hvalue
    omega
  · simp only []
    omega

/-- `FLASH_ERASE` stays inside. -/
structure Request.EraseFits (r : Request) : Prop where
  params : r.HasParams
  range : InFlash r.offset r.size

theorem call_flashErase (h : r.command = ecCmdFlashErase) :
    ecSendCommandNullLpc ec r.command r.outdata r.insize.toNat =
      implFlashErase ec r.params r.insize.toNat := by
  rw [h]
  rfl

theorem reply_flashErase (h : r.command = ecCmdFlashErase) (hfits : r.EraseFits) :
    r.reply ec = .ok ⟨0, [], { ec with gMutableFlash := ec.gMutableFlash.erase r.offset r.size }⟩ := by
  have hset : setMem ec.flash r.offset r.size 0xFF =
      pure ⟨ec.gMutableFlash.erase r.offset r.size, gFlashLen⟩ := if_pos hfits.range
  apply reply_of_stall 500000
  obtain ⟨hoffset, hsize'⟩ := load_params hfits.params
  rw [call_flashErase h, implFlashErase, hoffset, pure_bind, hsize', pure_bind, hset, pure_bind]

theorem reply_flashErase_fault (h : r.command = ecCmdFlashErase) (hfits : ¬r.EraseFits) :
    r.reply ec = .error .fault := by
  apply reply_of_fault
  rw [call_flashErase h, implFlashErase]
  by_cases hparams : r.HasParams
  swap
  · exact load_params_fault hparams _
  obtain ⟨hoffset, hsize'⟩ := load_params hparams
  have hset : setMem ec.flash r.offset r.size 0xFF = .fault :=
    if_neg fun hrange => hfits ⟨hparams, hrange⟩
  rw [hoffset, pure_bind, hsize', pure_bind, hset]
  rfl

theorem contract_flashErase (h : r.command = ecCmdFlashErase) : r.KeepsContract ec ↔ r.EraseFits := by
  rw [keepsContract_iff (reply_flashErase h) (reply_flashErase_fault h)]
  refine and_iff_left_of_imp fun _ => ⟨Nat.zero_le _, .inr ?_⟩
  simp only []
  omega

/-! ### The console, the lock and the statistics -/

theorem contract_value {rv : Int} {ec' : NullEc} (hrv : rv ≤ 0)
    (h : ecSendCommandNullLpc ec r.command r.outdata r.insize.toNat = pure ⟨rv, [], ec'⟩) :
    r.KeepsContract ec := by
  refine ⟨_, reply_of_pure h, Nat.zero_le _, ?_⟩
  simp only []
  omega

theorem contract_consoleSnapshot (h : r.command = ecCmdConsoleSnapshot) : r.KeepsContract ec :=
  contract_value (Int.le_refl 0) (by rw [h]; rfl)

/-- The simulator looks at the subcommand only when it has a log entry left. -/
theorem contract_consoleRead (h : r.command = ecCmdConsoleRead) :
    r.KeepsContract ec ↔ staticConsoleLogs[ec.gConsoleCount]? = none ∨ 0 < r.outdata.length := by
  have hcall : ecSendCommandNullLpc ec r.command r.outdata r.insize.toNat =
      implConsoleRead ec r.params r.insize.toNat := by
    rw [h]
    rfl
  unfold implConsoleRead at hcall
  cases hentry : staticConsoleLogs[ec.gConsoleCount]? with
  | none =>
    simp only [hentry] at hcall
    exact iff_of_true (contract_value (Int.le_refl 0) hcall) (.inl rfl)
  | some entry =>
    simp only [hentry] at hcall
    by_cases hparams : 0 < r.outdata.length
    swap
    · have hload : (r.params.load 0 : Prog Boot UInt8) = .fault := if_neg hparams
      rw [hload] at hcall
      exact iff_of_false (not_keepsContract (reply_of_fault hcall)) (by simp [hparams])
    · refine iff_of_true ?_ (.inr hparams)
      have hload : r.params.load 0 = (pure (r.params.bytes 0) : Prog Boot UInt8) := if_pos hparams
      rw [hload, pure_bind] at hcall
      by_cases hsub : r.params.bytes 0 = consoleReadRecent ∨ r.params.bytes 0 = consoleReadNext
      · have hlt := r.insize.toNat_lt
        rw [if_pos hsub, copyToResponse_of_le (by omega) (Nat.min_le_left _ _)
          (by simp only []; omega), pure_bind] at hcall
        refine ⟨_, reply_of_pure hcall, ?_, .inr ?_⟩
        · rw [Mem.toList_length]
          exact Nat.min_le_left _ _
        · exact Int.ofNat_le.2 (Nat.min_le_left _ _)
      · rw [if_neg hsub] at hcall
        exact contract_value (by decide) hcall

theorem contract_flashLock (h : r.command = 0x3E01) : r.KeepsContract ec ↔ 0 < r.outdata.length := by
  have hcall : ecSendCommandNullLpc ec r.command r.outdata r.insize.toNat =
      implFlashLock ec r.params r.insize.toNat := by
    rw [h]
    rfl
  unfold implFlashLock at hcall
  by_cases hparams : 0 < r.outdata.length
  · have hload : r.params.load 0 = (pure (r.params.bytes 0) : Prog Boot UInt8) := if_pos hparams
    rw [hload, pure_bind] at hcall
    exact iff_of_true (contract_value (Int.le_refl 0) hcall) hparams
  · have hload : (r.params.load 0 : Prog Boot UInt8) = .fault := if_neg hparams
    rw [hload] at hcall
    exact iff_of_false (not_keepsContract (reply_of_fault hcall)) hparams

end

end FrameworkHacks.Null
