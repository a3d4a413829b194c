import FrameworkHacks.Panic.Driver

/-!
# Histories of panics and boots

The driver against an EC that keeps the record of its last panic. A query returns the record as it
is and marks it as reported. The driver makes two queries and looks at the flags the second one
returned, so it takes every panic for one that was reported before: it never saves a record
(`boot_saved`). A history goes as it should exactly if no boot in it has a panic to capture
(`everyPanicCaptured_iff`).
-/

namespace FrameworkHacks.Panic

open Effects ECTool

/-! ### The EC -/

/-- A panic record: `struct PartialECPanicData` and the data behind it. It fits a response. -/
structure Record where
  arch : UInt8
  version : UInt8
  flags : UInt8
  data : List UInt8
  fits : 3 + data.length ≤ panicSize

namespace Record

def bytes (r : Record) : List UInt8 := r.arch :: r.version :: r.flags :: r.data

/-- The record was returned to a host command before. -/
def Reported (r : Record) : Prop := r.flags &&& partialPanicDataFlagOldHostcmd ≠ 0

instance (r : Record) : Decidable r.Reported :=
  inferInstanceAs (Decidable (r.flags &&& partialPanicDataFlagOldHostcmd ≠ 0))

/-- The record after a query. -/
def report (r : Record) : Record := { r with flags := r.flags ||| partialPanicDataFlagOldHostcmd }

theorem bytes_length (r : Record) : r.bytes.length = 3 + r.data.length := by
  simp only [bytes, List.length_cons]
  omega

theorem bytes_length_le (r : Record) : r.bytes.length ≤ panicSize := by
  rw [r.bytes_length]
  exact r.fits

theorem reported_report (r : Record) : r.report.Reported := by
  have hflag : (r.flags ||| partialPanicDataFlagOldHostcmd) &&& partialPanicDataFlagOldHostcmd =
      partialPanicDataFlagOldHostcmd := by
    apply UInt8.toBitVec_inj.1
    ext i hi
    simp only [UInt8.toBitVec_and, UInt8.toBitVec_or, BitVec.getElem_and, BitVec.getElem_or]
    cases r.flags.toBitVec[i] <;> simp
  rw [Reported, report, hflag]
  decide

end Record

/-- The record of a panic that no host command has returned. -/
abbrev NewRecord := { r : Record // ¬r.Reported }

/-! ### The machine -/

/-- The record the EC stores, and what was written to `SavedPanic`, the latest first. -/
structure Machine where
  panicInfo : Option Record
  savedPanic : List (List UInt8)

/-- The circumstances of a boot: the time, the EC's version and what is in uninitialised memory. -/
structure Boot where
  time : EfiTime
  buildInfo : List UInt8
  junk : Mem

/-- The answer to GET_PANIC_INFO. -/
def panicReply : Option Record → Reply
  | none => ⟨0, []⟩
  | some r => ⟨r.bytes.length, r.bytes⟩

/-- The services of a boot; all of them succeed. -/
def services (b : Boot) : Handler DriverServices Machine
  | .locateProtocol, m => .ok (efiSuccess, m)
  | .getTime, m => .ok ((efiSuccess, b.time), m)
  | .allocatePool _, m => .ok (efiSuccess, m)
  | .sendCommand c, m =>
    if c.command = ecCmdGetPanicInfo then
      .ok (panicReply m.panicInfo, { m with panicInfo := m.panicInfo.map Record.report })
    else
      .ok (⟨b.buildInfo.length, b.buildInfo⟩, m)
  | .setVariable size data, m => .ok (efiSuccess, { m with savedPanic := data.toList size :: m.savedPanic })
  | .freePool, m => .ok ((), m)
  | .indeterminate, m => .ok (b.junk, m)

inductive Event
  | panic (r : NewRecord)
  | boot (b : Boot)

def step (m : Machine) : Event → Machine
  | .panic r => { m with panicInfo := some r.val }
  | .boot b => (entryPoint.exec (services b) m).2

def run (m : Machine) (history : List Event) : Machine := history.foldl step m

/-! ### What is asked for -/

/-- The panic since the last boot of a history, if there was one. -/
def pending (history : List Event) : Option Record :=
  history.foldl (fun _ e => match e with | .panic r => some r.val | .boot _ => none) none

/-- What a boot should do to `SavedPanic`: save the pending record behind a header, or leave the
variable alone if there is none. -/
def Captures (before after : Machine) : Option Record → Prop
  | some r => ∃ saved, after.savedPanic = saved :: before.savedPanic ∧
      saved.drop sizeofSavedPanicInfo = r.bytes
  | none => after.savedPanic = before.savedPanic

/-- Every boot of the history does so. -/
def EveryPanicCaptured (m : Machine) (history : List Event) : Prop :=
  ∀ before b after, history = before ++ .boot b :: after →
    Captures (run m before) (run m (before ++ [.boot b])) (pending before)

/-! ### What the driver does -/

section

variable {m : Machine} {b : Boot}

theorem storePanic_of_le {saved : Buf} (hsize : saved.size = sizeofSavedPanicInfo + panicSize) {r : Reply}
    {insize : Nat} (hlen : r.data.length ≤ panicSize) :
    storePanic saved r insize =
      pure ⟨saved.bytes.copy sizeofSavedPanicInfo (Mem.ofList (stored r insize)) (stored r insize).length,
        saved.size⟩ := by
  have hstored : (stored r insize).length ≤ panicSize := Nat.le_trans (List.length_take_le' _ _) hlen
  rw [storePanic, Buf.copyIn_of_le _ (by omega)]

theorem storePanic_record (saved : Buf) (hsize : saved.size = sizeofSavedPanicInfo + panicSize) (r : Record)
    {insize : Nat} (hinsize : r.bytes.length ≤ insize) :
    ∃ bytes, storePanic saved (panicReply (some r)) insize = pure ⟨bytes, saved.size⟩ ∧
      bytes (sizeofSavedPanicInfo + panicFlagsOffset) = r.flags := by
  refine ⟨_, storePanic_of_le hsize r.bytes_length_le, ?_⟩
  rw [stored, panicReply, List.take_of_length_le hinsize, r.bytes_length,
    Mem.copy_in _ _ (show panicFlagsOffset < 3 + r.data.length by rw [panicFlagsOffset]; omega)]
  rfl

theorem ends_out : Prog.Ends (services b) (out ⟨true, efiSuccess⟩) m fun status m' =>
    status = efiAborted ∧ m'.savedPanic = m.savedPanic :=
  ⟨efiAborted, m, rfl, rfl, rfl⟩

theorem ends_entryPoint : Prog.Ends (services b) entryPoint m fun status m' =>
    status = efiAborted ∧ m'.savedPanic = m.savedPanic := by
  unfold entryPoint capture
  refine Attempt.ends_perform rfl (Attempt.ends_leaveIf (fun h => absurd h (by decide)) fun _ => ?_)
  refine Attempt.ends_perform rfl (Attempt.ends_leaveIf (fun h => absurd h (by decide)) fun _ => ?_)
  refine Attempt.ends_perform rfl (Attempt.ends_leaveIf (fun h => absurd h (by decide)) fun _ => ?_)
  refine Attempt.ends_perform rfl (Attempt.ends_perform (x := (⟨b.buildInfo.length, b.buildInfo⟩ : Reply)) rfl
    (Attempt.ends_leaveIf (fun h => absurd h (Int.not_lt.2 (Int.natCast_nonneg _))) fun _ => ?_))
  refine Attempt.ends_lift_pure (Buf.copyIn_of_le _
    (show ecVersionOffset + 31 ≤ sizeofSavedPanicInfo + panicSize by decide)) ?_
  -- the first query
  refine Attempt.ends_perform (x := panicReply m.panicInfo) rfl ?_
  cases m.panicInfo with
  | none =>
    refine Attempt.ends_lift_pure (storePanic_of_le rfl (Nat.zero_le panicSize)) ?_
    refine Attempt.ends_leaveIf (fun h => absurd h (by decide)) fun _ => ?_
    exact Attempt.ends_leaveIf (fun _ => ends_out) fun h => absurd rfl h
  | some r =>
    have hlen := r.bytes_length_le
    have hpos : 0 < (panicReply (some r)).rv := by
      simp only [panicReply, r.bytes_length]
      omega
    obtain ⟨bytes₁, hstore₁, -⟩ := storePanic_record
      ⟨(newSaved b.time).bytes.copy ecVersionOffset
        (Reply.into ⟨b.buildInfo.length, b.buildInfo⟩ b.junk panicSize) 31, (newSaved b.time).size⟩ rfl r hlen
    refine Attempt.ends_lift_pure hstore₁ ?_
    refine Attempt.ends_leaveIf (fun h => absurd h (Int.not_lt.2 (Int.le_of_lt hpos))) fun _ => ?_
    refine Attempt.ends_leaveIf (fun h => absurd h (Int.ne_of_gt hpos)) fun _ => ?_
    -- the second query returns the record as the first one left it
    refine Attempt.ends_perform (x := panicReply (some r.report)) rfl ?_
    have hinsize : toUintn (panicReply (some r)).rv = r.report.bytes.length :=
      toUintn_of_lt (by rw [panicSize] at hlen; omega)
    rw [hinsize]
    obtain ⟨bytes₂, hstore₂, hflags⟩ :=
      storePanic_record ⟨bytes₁, (newSaved b.time).size⟩ rfl r.report (Nat.le_refl _)
    refine Attempt.ends_lift_pure hstore₂ ?_
    refine Attempt.ends_leaveIf (fun _ => ends_out) fun h => absurd ?_ h
    simp only [hflags]
    exact r.reported_report

end

/-- A boot never writes `SavedPanic`. -/
theorem boot_saved (m : Machine) (b : Boot) : (step m (.boot b)).savedPanic = m.savedPanic := by
  obtain ⟨status, m', hexec, -, hsaved⟩ := ends_entryPoint (m := m) (b := b)
  rw [step, hexec, hsaved]

/-- **A history goes as it should exactly if no boot in it has a panic to capture.** -/
theorem everyPanicCaptured_iff (m : Machine) (history : List Event) :
    EveryPanicCaptured m history ↔
      ∀ before b after, history = before ++ .boot b :: after → pending before = none := by
  have hboot (before : List Event) (b : Boot) :
      (run m (before ++ [.boot b])).savedPanic = (run m before).savedPanic := by
    rw [run, List.foldl_append]
    exact boot_saved _ b
  constructor
  · intro h before b after hsplit
    have hcaptures := h before b after hsplit
    cases hpending : pending before with
    | none => rfl
    | some r =>
      rw [hpending] at hcaptures
      obtain ⟨saved, hsaved, -⟩ := hcaptures
      rw [hboot] at hsaved
      exact absurd hsaved (List.cons_ne_self saved _).symm
  · intro h before b after hsplit
    rw [h before b after hsplit]
    exact hboot before b

/-- A panic with one byte of data, and a boot after it. -/
theorem everyPanicCaptured_fails : ¬ ∀ m history, EveryPanicCaptured m history := by
  intro h
  have hcaptures := h ⟨none, []⟩
    [.panic ⟨⟨1, 2, 1, [0xDE], by decide⟩, by decide⟩, .boot ⟨⟨2023, 1, 1, 0, 0, 0⟩, ascii "hx30", fun _ => 0⟩]
    [.panic ⟨⟨1, 2, 1, [0xDE], by decide⟩, by decide⟩] _ [] rfl
  obtain ⟨saved, hsaved, -⟩ := hcaptures
  rw [run, List.foldl_append] at hsaved
  exact absurd ((boot_saved _ _).symm.trans hsaved) (List.cons_ne_self saved _).symm

end FrameworkHacks.Panic
