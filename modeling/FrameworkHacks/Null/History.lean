import Mathlib.Data.List.Induction
import FrameworkHacks.Null.Calls

/-!
# Histories of the simulated flash

The simulator under any sequence of host commands. Its flash is NOR flash (`Library.Nor`): `flashOp` is
the operation a request is, and what the flash holds after a history of requests is what the history of
their operations leaves (`null_norSemantics`).
-/

namespace FrameworkHacks.Null

open Effects

/-! ### Requests -/

/-- The operation on the flash that a request is. -/
def Request.flashOp (r : Request) : Option NorOp :=
  if r.command = ecCmdFlashWrite then
    some (.program r.offset ((Mem.ofList r.outdata).drop 8) r.size)
  else if r.command = ecCmdFlashErase then
    some (.erase r.offset r.size)
  else
    none

def Request.IsFlashCommand (r : Request) : Prop :=
  r.command = ecCmdFlashRead ∨ r.command = ecCmdFlashWrite ∨ r.command = ecCmdFlashErase

/-- The range of a flash command lies in the flash, and a write carries its data. -/
structure Request.InRange (r : Request) : Prop where
  range : r.IsFlashCommand → r.HasParams ∧ InFlash r.offset r.size
  data : r.command = ecCmdFlashWrite → 8 + r.size ≤ r.outdata.length

/-- The simulator after a sequence of requests. A call that faults ends it. -/
def serve (ec : NullEc) : List Request → Except Halt NullEc
  | [] => .ok ec
  | r :: rest =>
    match r.reply ec with
    | .ok a => serve a.ec rest
    | .error h => .error h

theorem serve_append (ec : NullEc) (history : List Request) (r : Request) :
    serve ec (history ++ [r]) =
      match serve ec history with
      | .ok ec => (match r.reply ec with
        | .ok a => .ok a.ec
        | .error h => .error h)
      | .error h => .error h := by
  induction history generalizing ec with
  | nil =>
    simp only [List.nil_append, serve]
  | cons first rest ih =>
    rw [List.cons_append, serve, serve]
    cases first.reply ec with
    | ok a => exact ih a.ec
    | error h => rfl

/-- What a history leaves at an address of the flash. -/
def flashAfter (history : List Request) (i : Nat) : UInt8 :=
  NorOp.byteAfter (history.filterMap Request.flashOp) i

theorem flashAfter_append (history : List Request) (r : Request) (i : Nat) :
    flashAfter (history ++ [r]) i =
      NorOp.byteAfter (history.filterMap Request.flashOp ++ r.flashOp.toList) i := by
  unfold flashAfter
  rw [List.filterMap_append]
  cases hop : r.flashOp with
  | none => simp [hop]
  | some op => simp [hop]

/-! ### One request -/

section

variable {ec : NullEc} {r : Request} {a : Answer}

theorem Request.InRange.writeFits (h : r.InRange) (hc : r.command = ecCmdFlashWrite) : r.WriteFits :=
  ⟨(h.range (.inr (.inl hc))).1, h.data hc, (h.range (.inr (.inl hc))).2⟩

theorem Request.InRange.eraseFits (h : r.InRange) (hc : r.command = ecCmdFlashErase) : r.EraseFits :=
  ⟨(h.range (.inr (.inr hc))).1, (h.range (.inr (.inr hc))).2⟩

theorem Request.InRange.readFits (h : r.InRange) (hc : r.command = ecCmdFlashRead)
    (hinsize : r.insize.toNat < 0x8000000000000000) : r.ReadFits := by
  obtain ⟨hparams, hrange⟩ := h.range (.inl hc)
  refine ⟨hparams, hinsize, ?_⟩
  rcases hrange with hzero | hrange
  · exact .inl (by rw [Request.readSize, hzero, Nat.min_zero])
  · have hle : r.readSize ≤ r.size := Nat.min_le_right _ _
    exact .inr (by omega)

theorem holds_otherCommand (hwrite : r.command ≠ ecCmdFlashWrite) (herase : r.command ≠ ecCmdFlashErase) :
    Prog.Holds (fun _ => True) (fun _ => True) (fun _ => True)
      (fun a => a.ec.gMutableFlash = ec.gMutableFlash)
      (ecSendCommandNullLpc ec r.command r.outdata r.insize.toNat) := by
  unfold ecSendCommandNullLpc
  simp only [if_neg hwrite, if_neg herase]
  split
  · exact (Prog.holds_true _).bind fun _ _ => rfl
  split
  · unfold implGetVersion
    refine (Prog.holds_true _).bind fun map _ => ?_
    cases map with
    | none => exact (Prog.holds_true _).bind fun _ _ => (Prog.holds_true _).bind fun _ _ => rfl
    | some hdr =>
      refine (Prog.holds_true _).bind fun _ _ => (Prog.holds_true _).bind fun _ _ => ?_
      exact (Prog.holds_true _).bind fun _ _ => rfl
  split
  · exact (Prog.holds_true _).bind fun _ _ => rfl
  split
  · unfold implFlashRead
    refine (Prog.holds_true _).bind fun _ _ => (Prog.holds_true _).bind fun _ _ => ?_
    exact (Prog.holds_true _).bind fun _ _ => (Prog.holds_true _).bind fun _ _ => rfl
  split
  · exact rfl
  split
  · unfold implConsoleRead
    cases staticConsoleLogs[ec.gConsoleCount]? with
    | none => exact rfl
    | some entry =>
      refine (Prog.holds_true _).bind fun subcmd _ => ?_
      split
      · exact (Prog.holds_true _).bind fun _ _ => rfl
      · exact rfl
  split
  · exact (Prog.holds_true _).bind fun _ _ => rfl
  split
  · exact rfl
  · exact rfl

theorem reply_other (hwrite : r.command ≠ ecCmdFlashWrite) (herase : r.command ≠ ecCmdFlashErase)
    (h : r.reply ec = .ok a) : a.ec.gMutableFlash = ec.gMutableFlash := by
  have hexec : (ecSendCommandNullLpc ec r.command r.outdata r.insize.toNat).exec boot () = (.ok a, ()) :=
    Prod.ext h rfl
  obtain ⟨t, hrun⟩ := Prog.exec_run hexec
  exact (holds_otherCommand hwrite herase).result hrun

/-- **An answered request does its operation to the flash.** -/
theorem reply_flash (hr : r.InRange) (h : r.reply ec = .ok a) :
    a.ec.gMutableFlash = match r.flashOp with
      | some op => op.apply ec.gMutableFlash
      | none => ec.gMutableFlash := by
  unfold Request.flashOp
  by_cases hwrite : r.command = ecCmdFlashWrite
  · rw [reply_flashWrite hwrite (hr.writeFits hwrite)] at h
    cases h
    rw [if_pos hwrite]
    rfl
  by_cases herase : r.command = ecCmdFlashErase
  · rw [reply_flashErase herase (hr.eraseFits herase)] at h
    cases h
    rw [if_neg hwrite, if_pos herase]
    rfl
  · rw [if_neg hwrite, if_neg herase]
    exact reply_other hwrite herase h

theorem reply_answered (hr : r.InRange) (hc : r.IsFlashCommand)
    (hinsize : r.command = ecCmdFlashRead → r.insize.toNat < 0x8000000000000000) :
    ∃ a, r.reply ec = .ok a := by
  rcases hc with hread | hwrite | herase
  · exact ⟨_, reply_flashRead hread (hr.readFits hread (hinsize hread))⟩
  · exact ⟨_, reply_flashWrite hwrite (hr.writeFits hwrite)⟩
  · exact ⟨_, reply_flashErase herase (hr.eraseFits herase)⟩

end

/-! ### Histories -/

/-- The run lemma: the flash is what the history of operations leaves. -/
theorem serve_flash {history : List Request} (h : ∀ r ∈ history, r.InRange) {ec : NullEc}
    (hserve : serve NullEc.initial history = .ok ec) (i : Nat) :
    ec.gMutableFlash i = flashAfter history i := by
  induction history using List.reverseRecOn generalizing ec with
  | nil =>
    cases hserve
    rfl
  | append_singleton history r ih =>
    rw [serve_append] at hserve
    cases hbefore : serve NullEc.initial history with
    | error e => simp only [hbefore] at hserve; cases hserve
    | ok before =>
      simp only [hbefore] at hserve
      have hflash := ih (fun r hr => h r (List.mem_append_left _ hr)) hbefore
      cases hreply : r.reply before with
      | error e => simp only [hreply] at hserve; cases hserve
      | ok a =>
        simp only [hreply] at hserve
        cases hserve
        rw [reply_flash (h r (by simp)) hreply, flashAfter_append]
        cases r.flashOp with
        | none =>
          rw [Option.toList_none, List.append_nil]
          exact hflash
        | some op => exact NorOp.byteAfter_append _ op _ i hflash

/-- What the simulated flash does at every point of a history. -/
structure NorSemantics (history : List Request) : Prop where
  /-- Every flash command is answered; the buffer of a read takes at most half the address space. -/
  answered : ∀ pre r post ec, history = pre ++ r :: post → serve NullEc.initial pre = .ok ec →
    r.IsFlashCommand → (r.command = ecCmdFlashRead → r.insize.toNat < 0x8000000000000000) →
    ∃ a, r.reply ec = .ok a
  flash : ∀ pre post ec, history = pre ++ post → serve NullEc.initial pre = .ok ec →
    ∀ i < gFlashLen, ec.gMutableFlash i = flashAfter pre i
  read : ∀ pre r post ec a, history = pre ++ r :: post → serve NullEc.initial pre = .ok ec →
    r.command = ecCmdFlashRead → r.reply ec = .ok a →
    a.rv = ((min r.insize.toNat r.size : Nat) : Int) ∧
      a.response = (List.range (min r.insize.toNat r.size)).map fun k => flashAfter pre (r.offset + k)
  others : ∀ pre r post ec a, history = pre ++ r :: post → serve NullEc.initial pre = .ok ec →
    r.command ≠ ecCmdFlashWrite → r.command ≠ ecCmdFlashErase → r.reply ec = .ok a →
    a.ec.gMutableFlash = ec.gMutableFlash

/-- **The simulated flash obeys NOR semantics over every history of in-range requests.** -/
theorem null_norSemantics (history : List Request) (h : ∀ r ∈ history, r.InRange) :
    NorSemantics history where
  answered pre r post ec hsplit _ hflash hinsize := by
    subst hsplit
    exact reply_answered (h r (by simp)) hflash hinsize
  flash pre post ec hsplit hserve i _ := by
    subst hsplit
    exact serve_flash (fun r hr => h r (List.mem_append_left post hr)) hserve i
  read pre r post ec a hsplit hserve hread hreply := by
    subst hsplit
    have hfits : r.ReadFits := by
      by_contra hnot
      rw [reply_flashRead_fault hread hnot] at hreply
      cases hreply
    rw [reply_flashRead hread hfits] at hreply
    cases hreply
    refine ⟨rfl, List.map_congr_left fun k _ => ?_⟩
    exact serve_flash (fun r hr => h r (List.mem_append_left _ hr)) hserve _
  others pre r post ec a _ _ hwrite herase hreply := reply_other hwrite herase hreply

/-- A write over a part of another, an erase of a part of both, and a read. -/
def sampleHistory : List Request :=
  [⟨ecCmdFlashWrite, Mem.le32Bytes 2 ++ Mem.le32Bytes 3 ++ [0xF0, 0x0F, 0x3C], 3⟩,
   ⟨ecCmdFlashWrite, Mem.le32Bytes 3 ++ Mem.le32Bytes 2 ++ [0xAA, 0x18], 2⟩,
   ⟨ecCmdFlashErase, Mem.le32Bytes 0 ++ Mem.le32Bytes 3, 0⟩,
   ⟨ecCmdFlashRead, Mem.le32Bytes 0 ++ Mem.le32Bytes 6, 6⟩]

example : (List.range 6).map (flashAfter sampleHistory) = [0xFF, 0xFF, 0xFF, 0x0A, 0x18, 0xFF] := by
  decide

theorem null_norSemantics_sample : (∀ r ∈ sampleHistory, r.InRange) ∧ NorSemantics sampleHistory := by
  have hrange : ∀ r ∈ sampleHistory, r.InRange := by
    intro r hr
    simp only [sampleHistory, List.mem_cons, List.not_mem_nil, or_false] at hr
    rcases hr with rfl | rfl | rfl | rfl
    all_goals exact ⟨fun _ => ⟨show 8 ≤ _ by decide, .inr (by decide)⟩, by decide⟩
  exact ⟨hrange, null_norSemantics sampleHistory hrange⟩

end FrameworkHacks.Null
