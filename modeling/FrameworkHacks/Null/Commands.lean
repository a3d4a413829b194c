import FrameworkHacks.FmapBounds
import FrameworkHacks.Null.ECNull

/-!
# What the simulator's flash commands do

One lemma for each command: on parameters that are all there and on a range that lies in the flash,
`answer` is what the command's name says, in terms of the operations of NOR flash.
-/

namespace FrameworkHacks.Null

open Effects

/-- The machine the simulator runs on; stalling always works. -/
def boot : Handler Boot Unit := fun _ _ => .ok ((), ())

/-- A call of `SendCommand`, run to its end. -/
def answer (ec : NullEc) (command : Nat) (outdata : List UInt8) (insize : Nat) : Except Halt Answer :=
  ((ecSendCommandNullLpc ec command outdata insize).exec boot ()).1

/-! ### Memory -/

theorem copyToResponse_of_le {responseSize start n : Nat} {src : Buf} (hn : n < 0x10000000000000000)
    (hresponse : n ≤ responseSize) (hsrc : start + n ≤ src.size) :
    copyToResponse responseSize src start n = pure ((src.bytes.drop start).toList n) := by
  rw [copyToResponse, toUintn_of_lt hn]
  exact if_pos ⟨hresponse, .inr hsrc⟩

theorem setMem_of_le {flash : Buf} {start n : Nat} (v : UInt8) (h : start + n ≤ flash.size) :
    setMem flash start n v = pure { flash with bytes := flash.bytes.fill start n v } :=
  if_pos (.inr h)

/-- The sign extension does not show in a byte. -/
theorem andChar_eq (old c : UInt8) : andChar old c = old &&& c := by
  have hchar : c.toInt8.toInt32.toUInt32.toUInt8 = c := by
    apply UInt8.toBitVec_inj.1
    ext i hi
    simp [BitVec.getElem_signExtend, hi, show i < 32 by omega]
  rw [andChar, UInt32.toUInt8_and, UInt8.toUInt8_toUInt32, hchar]

theorem flashWriteByte_of_lt {params flash : Buf} {offset i : Nat} (hflash : offset + i < flash.size)
    (hsize : flash.size ≤ 4294967296) (hparams : 8 + i < params.size) :
    flashWriteByte params offset i flash =
      pure ⟨flash.bytes.set (offset + i) (flash.bytes (offset + i) &&& params.bytes (8 + i)),
        flash.size⟩ := by
  rw [flashWriteByte, Nat.mod_eq_of_lt (by omega), Buf.load_of_lt hflash, pure_bind,
    Buf.load_of_lt hparams, pure_bind, andChar_eq]
  exact Buf.store_of_lt _ hflash

/-- The loop of `FLASH_WRITE` programs the data; the induction is on the bytes still to go. -/
theorem forRange_flashWriteByte {params : Buf} {m : Mem} {offset len lo n : Nat}
    (hflash : offset + (lo + n) ≤ len) (hlen : len ≤ 4294967296) (hparams : 8 + (lo + n) ≤ params.size) :
    Prog.forRange (flashWriteByte params offset) lo n ⟨m.program offset (params.bytes.drop 8) lo, len⟩ =
      pure ⟨m.program offset (params.bytes.drop 8) (lo + n), len⟩ := by
  induction n generalizing lo with
  | zero => rfl
  | succ n ih =>
    set flash : Buf := ⟨m.program offset (params.bytes.drop 8) lo, len⟩ with hflash'
    have hbyte : flashWriteByte params offset lo flash =
        pure ⟨m.program offset (params.bytes.drop 8) (lo + 1), len⟩ := by
      have hold : flash.bytes (offset + lo) = m (offset + lo) :=
        Mem.program_out m _ (.inr (Nat.le_refl _))
      rw [flashWriteByte_of_lt (by rw [hflash']; simp only; omega) hlen (by omega), hold,
        Mem.program_succ, Mem.drop_apply]
    rw [Prog.forRange_succ, hbyte, pure_bind, ih (by omega) (by omega),
      show lo + 1 + n = lo + (n + 1) by omega]

/-! ### Commands -/

section

variable {ec : NullEc} {outdata : List UInt8} {insize : Nat}

theorem answer_flashInfo (h : 24 ≤ insize) :
    answer ec ecCmdFlashInfo outdata insize = .ok ⟨24, flashInfoResp, ec⟩ := by
  have hcall : ecSendCommandNullLpc ec ecCmdFlashInfo outdata insize =
      implFlashInfo ec ⟨Mem.ofList outdata, outdata.length⟩ insize := rfl
  have hcopy : copyToResponse insize ⟨Mem.ofList flashInfoResp, 24⟩ 0 24 =
      pure (((Mem.ofList flashInfoResp).drop 0).toList 24) :=
    copyToResponse_of_le (n := 24) (by decide) h (Nat.le_refl 24)
  rw [answer, hcall, implFlashInfo, hcopy]
  rfl

theorem answer_getCmdVersions : answer ec ecCmdGetCmdVersions outdata insize = .ok ⟨-1, [], ec⟩ := rfl

variable {offset size : Nat}

theorem answer_flashRead (hparams : 8 ≤ outdata.length) (hoffset : (Mem.ofList outdata).le32 0 = offset)
    (hsize : (Mem.ofList outdata).le32 4 = size) (hrange : offset + size ≤ gFlashLen)
    (hinsize : insize < 0x8000000000000000) :
    answer ec ecCmdFlashRead outdata insize =
      .ok ⟨(min insize size : Nat), (ec.gMutableFlash.drop offset).toList (min insize size), ec⟩ := by
  have hcall : ecSendCommandNullLpc ec ecCmdFlashRead outdata insize =
      implFlashRead ec ⟨Mem.ofList outdata, outdata.length⟩ insize := rfl
  have hcopy : copyToResponse insize ec.flash offset (min insize size : Nat) =
      pure ((ec.gMutableFlash.drop offset).toList (min insize size)) :=
    copyToResponse_of_le (by omega) (by omega) (by rw [NullEc.flash]; simp only; omega)
  have hmin : (min (insize : Int) size) = ((min insize size : Nat) : Int) := by omega
  rw [answer, hcall, implFlashRead, loadLe32_of_le (by simp only; omega), pure_bind,
    loadLe32_of_le (by simp only; omega), pure_bind, hoffset, hsize]
  simp only [toIntn_of_lt hinsize, hmin, hcopy, pure_bind]
  rfl

theorem answer_flashWrite (hparams : 8 + size ≤ outdata.length)
    (hoffset : (Mem.ofList outdata).le32 0 = offset) (hsize : (Mem.ofList outdata).le32 4 = size)
    (hrange : offset + size ≤ gFlashLen) :
    answer ec ecCmdFlashWrite outdata insize =
      .ok ⟨size, [], { ec with
        gMutableFlash := ec.gMutableFlash.program offset ((Mem.ofList outdata).drop 8) size }⟩ := by
  have hcall : ecSendCommandNullLpc ec ecCmdFlashWrite outdata insize =
      implFlashWrite ec ⟨Mem.ofList outdata, outdata.length⟩ insize := rfl
  have hloop : Prog.forRange (flashWriteByte ⟨Mem.ofList outdata, outdata.length⟩ offset) 0 size
      ⟨ec.gMutableFlash.program offset ((Mem.ofList outdata).drop 8) 0, gFlashLen⟩ =
      pure ⟨ec.gMutableFlash.program offset ((Mem.ofList outdata).drop 8) (0 + size), gFlashLen⟩ :=
    forRange_flashWriteByte (by omega) (by decide) (by simp only; omega)
  rw [Nat.zero_add, Mem.program_zero] at hloop
  rw [answer, hcall, implFlashWrite, loadLe32_of_le (by simp only; omega), pure_bind,
    loadLe32_of_le (by simp only; omega), pure_bind, hoffset, hsize, NullEc.flash, hloop]
  rfl

theorem answer_flashErase (hparams : 8 ≤ outdata.length)
    (hoffset : (Mem.ofList outdata).le32 0 = offset) (hsize : (Mem.ofList outdata).le32 4 = size)
    (hrange : offset + size ≤ gFlashLen) :
    answer ec ecCmdFlashErase outdata insize =
      .ok ⟨0, [], { ec with gMutableFlash := ec.gMutableFlash.erase offset size }⟩ := by
  have hcall : ecSendCommandNullLpc ec ecCmdFlashErase outdata insize =
      implFlashErase ec ⟨Mem.ofList outdata, outdata.length⟩ insize := rfl
  rw [answer, hcall, implFlashErase, loadLe32_of_le (by simp only; omega), pure_bind,
    loadLe32_of_le (by simp only; omega), pure_bind, hoffset, hsize,
    setMem_of_le _ (by rw [NullEc.flash]; exact hrange)]
  rfl

end

end FrameworkHacks.Null
