import Mathlib.Data.List.GetD
import FrameworkHacks.Panic.Capture

/-!
# What becomes of the saved panic

`EntryPoint` under every combination of answers. A run that reaches `SetVariable` has had a positive
count from the first panic query; the count of the second query is not looked at, and the version
string is copied whole from a local that may be filled in part. `Faithful` is what a run owes the
variable, `entryPoint_faithful_iff` says which answers it takes.
-/

namespace FrameworkHacks.Panic

open Effects ECTool

/-! ### Answers -/

/-- What `SendCommand` may do with a buffer of `insize` bytes: fail, or fill a part of it. -/
inductive Answer (insize : Nat) where
  | failed (code : Int) (neg : code < 0)
  | returned (bytes : List UInt8) (fits : bytes.length ≤ insize)

namespace Answer

variable {insize : Nat}

def bytes : Answer insize → List UInt8
  | .failed _ _ => []
  | .returned bytes _ => bytes

def rv : Answer insize → Int
  | .failed code _ => code
  | .returned bytes _ => bytes.length

def reply (a : Answer insize) : Reply := ⟨a.rv, a.bytes⟩

theorem bytes_length_le (a : Answer insize) : a.bytes.length ≤ insize := by
  cases a with
  | failed code neg => exact Nat.zero_le insize
  | returned bytes fits => exact fits

theorem rv_of_nonneg {a : Answer insize} (h : 0 ≤ a.rv) : a.rv = a.bytes.length := by
  cases a with
  | failed code neg =>
    have hneg : code < 0 := neg
    exact absurd h (by simp only [rv]; omega)
  | returned bytes fits => rfl

theorem stored_reply (a : Answer insize) : stored a.reply insize = a.bytes :=
  List.take_of_length_le a.bytes_length_le

end Answer

/-- The answers of a run: the three services before the EC is asked, the three commands, and
`SetVariable`. The second panic query is given a buffer of the first one's count. -/
structure Answers where
  located : EfiStatus
  timeStatus : EfiStatus
  time : EfiTime
  allocated : EfiStatus
  buildInfo : Answer panicSize
  query : Answer panicSize
  requery : Answer query.bytes.length
  written : EfiStatus

/-- The panic queries made, and the calls of `SetVariable`: size and data. -/
structure Calls where
  queries : Nat
  setVariable : List (Nat × Mem)

/-- The services of a run. `junk` is what is in uninitialised memory. -/
def Answers.handler (a : Answers) (junk : Mem) : Handler DriverServices Calls
  | .locateProtocol, c => .ok (a.located, c)
  | .getTime, c => .ok ((a.timeStatus, a.time), c)
  | .allocatePool _, c => .ok (a.allocated, c)
  | .sendCommand cmd, c =>
    if cmd.command = ecCmdGetPanicInfo then
      .ok (if c.queries = 0 then a.query.reply else a.requery.reply, { c with queries := c.queries + 1 })
    else
      .ok (a.buildInfo.reply, c)
  | .setVariable size data, c => .ok (a.written, { c with setVariable := c.setVariable ++ [(size, data)] })
  | .freePool, c => .ok ((), c)
  | .indeterminate, c => .ok (junk, c)

/-! ### What a run owes the variable -/

/-- The calls of `SetVariable` a run makes. -/
def Answers.calls (a : Answers) (junk : Mem) : List (Nat × Mem) :=
  (entryPoint.exec (a.handler junk) ⟨0, []⟩).2.setVariable

/-- A call is made only if every command succeeded, the first panic query with a record and the last
with at least `least` bytes, and saves these behind the header; what it saves does not depend on
uninitialised memory. -/
structure Faithful (least : Nat) (a : Answers) : Prop where
  answered : ∀ junk, ∀ call ∈ a.calls junk, 0 ≤ a.buildInfo.rv ∧ 0 < a.query.rv ∧
    (least : Int) ≤ a.requery.rv ∧ (call.1 : Int) = sizeofSavedPanicInfo + a.requery.rv
  contents : ∀ junk junk', (a.calls junk).map (fun call => call.2.toList call.1) =
    (a.calls junk').map fun call => call.2.toList call.1
  returns : ∀ junk, ∃ status c, entryPoint.exec (a.handler junk) ⟨0, []⟩ = (.ok status, c)

/-! ### What the driver does -/

/-- What is behind the header after both queries: the second may be shorter than the first. -/
def Answers.panicBytes (a : Answers) : List UInt8 :=
  a.requery.bytes ++ a.query.bytes.drop a.requery.bytes.length

/-- The flags the driver looks at. -/
def Answers.flags (a : Answers) : UInt8 := a.panicBytes.getD panicFlagsOffset 0

/-- Every test on the way to `SetVariable` is passed. -/
structure Answers.Saves (a : Answers) : Prop where
  located : ¬efiError a.located = true
  timed : ¬efiError a.timeStatus = true
  allocated : ¬efiError a.allocated = true
  buildInfo : 0 ≤ a.buildInfo.rv
  query : 0 < a.query.rv
  flags : a.flags &&& partialPanicDataFlagOldHostcmd = 0

/-- `Saved` when the version string has been copied. -/
def Answers.header (a : Answers) (junk : Mem) : Mem :=
  (newSaved a.time).bytes.copy ecVersionOffset (a.buildInfo.reply.into junk panicSize) 31

/-- `Saved` after both queries. -/
def Answers.contents (a : Answers) (junk : Mem) : Mem :=
  ((a.header junk).copy sizeofSavedPanicInfo (Mem.ofList a.query.bytes) a.query.bytes.length).copy
    sizeofSavedPanicInfo (Mem.ofList a.requery.bytes) a.requery.bytes.length

section

variable {a : Answers} {junk : Mem}

theorem header_zero {i : Nat} (hi : 40 ≤ i) : a.header junk i = 0 := by
  have hlen : (savedHeader a.time).length ≤ i := Nat.le_trans (by decide : 8 ≤ 40) hi
  have hout : ecVersionOffset + 31 ≤ i := Nat.le_trans (by decide) hi
  rw [Answers.header, Mem.copy_out _ _ (.inr hout)]
  exact List.getD_eq_default _ _ hlen

theorem contents_panic (i : Nat) :
    a.contents junk (sizeofSavedPanicInfo + i) = a.panicBytes.getD i 0 := by
  unfold Answers.contents Answers.panicBytes
  by_cases hlast : i < a.requery.bytes.length
  · rw [Mem.copy_in _ _ hlast, Mem.ofList, List.getD_append _ _ _ _ hlast]
  rw [Mem.copy_out _ _ (.inr (by omega)), List.getD_append_right _ _ _ _ (by omega)]
  by_cases hfirst : i < a.query.bytes.length
  · rw [Mem.copy_in _ _ hfirst, Mem.ofList]
    simp only [List.getD_eq_getElem?_getD, List.getElem?_drop]
    rw [Nat.add_sub_cancel' (by omega)]
  · rw [Mem.copy_out _ _ (.inr (by omega)), header_zero (by simp [sizeofSavedPanicInfo])]
    exact (List.getD_eq_default _ _ (by rw [List.length_drop]; omega)).symm

/-- The version string is the EC's where the EC gave it, and what was in the local elsewhere. -/
theorem contents_version {i : Nat} (hi : i < 31) :
    a.contents junk (ecVersionOffset + i) =
      if i < a.buildInfo.bytes.length then Mem.ofList a.buildInfo.bytes i else junk i := by
  have hheader : ecVersionOffset + i < sizeofSavedPanicInfo := by
    simp only [ecVersionOffset, sizeofSavedPanicInfo]
    omega
  rw [Answers.contents, Mem.copy_out _ _ (.inl hheader), Mem.copy_out _ _ (.inl hheader),
    Answers.header, Mem.copy_in _ _ hi]
  have hstored := a.buildInfo.stored_reply
  rw [stored] at hstored
  rw [Reply.into, hstored, Mem.overlay]
  split
  · rename_i hlt
    rw [Mem.copy_front _ _ hlt]
  · rw [Mem.copy_out _ _ (.inr (by omega))]

theorem contents_congr {junk' : Mem} (h : 31 ≤ a.buildInfo.bytes.length) :
    a.contents junk = a.contents junk' := by
  have hstored := a.buildInfo.stored_reply
  rw [stored] at hstored
  have hheader : a.header junk = a.header junk' := by
    apply Mem.copy_congr
    intro i hi
    rw [Reply.into, Reply.into, hstored, Mem.overlay, Mem.overlay, Mem.copy_front _ _ (by omega),
      Mem.copy_front _ _ (by omega)]
  rw [Answers.contents, Answers.contents, hheader]

theorem ends_leave (leave : Leave) (c : Calls) :
    Prog.Ends (a.handler junk) (out leave) c fun _ c' => c'.setVariable = c.setVariable := by
  obtain ⟨saved, status⟩ := leave
  cases saved with
  | true => exact ⟨_, c, rfl, rfl⟩
  | false => exact ⟨_, c, rfl, rfl⟩

theorem ends_capture (a : Answers) (junk : Mem) :
    Prog.Ends (a.handler junk) entryPoint ⟨0, []⟩ fun _ c =>
      (a.Saves ∧ c.setVariable = [(toUintn (sizeofSavedPanicInfo + a.requery.rv), a.contents junk)]) ∨
        (¬a.Saves ∧ c.setVariable = []) := by
  have hleave {leave : Leave} {c : Calls} (hc : c.setVariable = []) (hnot : ¬a.Saves) :
      Prog.Ends (a.handler junk) (out leave) c fun _ c =>
        (a.Saves ∧ c.setVariable = [(toUintn (sizeofSavedPanicInfo + a.requery.rv), a.contents junk)]) ∨
          (¬a.Saves ∧ c.setVariable = []) :=
    (ends_leave leave c).mono fun _ c' hc' => .inr ⟨hnot, hc'.trans hc⟩
  unfold entryPoint capture
  refine Attempt.ends_perform rfl (Attempt.ends_leaveIf (fun h => hleave rfl fun s => s.located h)
    fun hlocated => ?_)
  refine Attempt.ends_perform rfl (Attempt.ends_leaveIf (fun h => hleave rfl fun s => s.timed h)
    fun htimed => ?_)
  refine Attempt.ends_perform rfl (Attempt.ends_leaveIf (fun h => hleave rfl fun s => s.allocated h)
    fun hallocated => ?_)
  refine Attempt.ends_perform rfl (Attempt.ends_perform (x := a.buildInfo.reply) rfl
    (Attempt.ends_leaveIf (fun h => hleave rfl fun s => absurd h (Int.not_lt.2 s.buildInfo))
      fun hbuild => ?_))
  refine Attempt.ends_lift_pure (Buf.copyIn_of_le _
    (show ecVersionOffset + 31 ≤ sizeofSavedPanicInfo + panicSize by decide)) ?_
  -- the first query
  refine Attempt.ends_perform (x := a.query.reply) rfl
    (Attempt.ends_lift_pure (storePanic_of_le rfl a.query.bytes_length_le) ?_)
  refine Attempt.ends_leaveIf (fun h => hleave rfl fun s => absurd h (Int.not_lt.2 (Int.le_of_lt s.query)))
    fun hneg => ?_
  refine Attempt.ends_leaveIf (fun h => hleave rfl fun s => absurd h (Int.ne_of_gt s.query))
    fun hnone => ?_
  have hpos : 0 < a.query.rv := Int.lt_iff_le_and_ne.2 ⟨Int.not_lt.1 hneg, fun h => hnone h.symm⟩
  -- the second one
  have hcount : toUintn a.query.reply.rv = a.query.bytes.length := by
    have hrv : a.query.reply.rv = a.query.bytes.length := Answer.rv_of_nonneg (Int.le_of_lt hpos)
    have hle : a.query.bytes.length ≤ 255 := a.query.bytes_length_le
    rw [hrv]
    exact toUintn_of_lt (by omega)
  rw [hcount]
  refine Attempt.ends_perform (x := a.requery.reply) rfl (Attempt.ends_lift_pure (storePanic_of_le rfl
    (Nat.le_trans a.requery.bytes_length_le a.query.bytes_length_le)) ?_)
  rw [a.query.stored_reply, a.requery.stored_reply]
  have hflags : a.contents junk (sizeofSavedPanicInfo + panicFlagsOffset) = a.flags :=
    contents_panic panicFlagsOffset
  refine Attempt.ends_leaveIf (fun h => hleave rfl fun s => ?_) fun hnew => ?_
  · have hold : a.contents junk (sizeofSavedPanicInfo + panicFlagsOffset) &&&
        partialPanicDataFlagOldHostcmd ≠ 0 := h
    rw [hflags] at hold
    exact hold s.flags
  · have hnew : a.contents junk (sizeofSavedPanicInfo + panicFlagsOffset) &&&
        partialPanicDataFlagOldHostcmd = 0 := not_not.1 hnew
    rw [hflags] at hnew
    exact ⟨_, _, rfl, .inl ⟨⟨hlocated, htimed, hallocated, Int.not_lt.1 hbuild, hpos, hnew⟩, rfl⟩⟩

theorem calls_eq (h : a.Saves) :
    a.calls junk = [(toUintn (sizeofSavedPanicInfo + a.requery.rv), a.contents junk)] := by
  obtain ⟨status, c, hexec, hc⟩ := ends_capture a junk
  rw [Answers.calls, hexec]
  rcases hc with ⟨-, hc⟩ | ⟨hnot, -⟩
  · exact hc
  · exact (hnot h).elim

theorem calls_nil (h : ¬a.Saves) : a.calls junk = [] := by
  obtain ⟨status, c, hexec, hc⟩ := ends_capture a junk
  rw [Answers.calls, hexec]
  rcases hc with ⟨hsaves, -⟩ | ⟨-, hc⟩
  · exact (h hsaves).elim
  · exact hc

theorem size_of_nonneg (h : 0 ≤ a.requery.rv) :
    ((toUintn (sizeofSavedPanicInfo + a.requery.rv) : Nat) : Int) =
      sizeofSavedPanicInfo + a.requery.rv := by
  have hle := a.requery.bytes_length_le
  have hle' : a.query.bytes.length ≤ 255 := a.query.bytes_length_le
  rw [Answer.rv_of_nonneg h, ← Int.natCast_add,
    toUintn_of_lt (by rw [sizeofSavedPanicInfo]; omega)]

/-- A version string cut short by the EC shows what was in the local. -/
theorem version_of_contents_eq (h : a.Saves) (hrv : 0 ≤ a.requery.rv)
    (hsame : ∀ junk junk', (a.calls junk).map (fun call => call.2.toList call.1) =
      (a.calls junk').map fun call => call.2.toList call.1) : 31 ≤ a.buildInfo.bytes.length := by
  by_contra hshort
  have hlists := hsame (fun _ => 0) (fun _ => 1)
  rw [calls_eq h, calls_eq h] at hlists
  have hcontents := (List.cons.inj hlists).1
  set k := a.buildInfo.bytes.length with hk
  have hsize : ecVersionOffset + k < toUintn (sizeofSavedPanicInfo + a.requery.rv) := by
    have hcast := size_of_nonneg hrv
    simp only [ecVersionOffset, sizeofSavedPanicInfo] at hcast ⊢
    omega
  have hbyte := congrArg (fun l : List UInt8 => Mem.ofList l (ecVersionOffset + k)) hcontents
  simp only [] at hbyte
  rw [Mem.ofList_toList _ hsize, Mem.ofList_toList _ hsize, contents_version (by omega),
    contents_version (by omega), if_neg (by omega), if_neg (by omega)] at hbyte
  exact absurd hbyte (by decide)

end

/-- **When the saved panic is what it should be**: a run that does not reach `SetVariable`, or one in
which the last panic query succeeded and the EC filled the version string. -/
theorem entryPoint_faithful_iff (least : Nat) (a : Answers) :
    Faithful least a ↔
      ¬a.Saves ∨ ((least : Int) ≤ a.requery.rv ∧ 31 ≤ a.buildInfo.bytes.length) := by
  by_cases hsaves : a.Saves
  · constructor
    · intro hfaithful
      have hanswered := hfaithful.answered (fun _ => 0) _
        (by rw [calls_eq hsaves]; exact List.mem_singleton_self _)
      exact .inr ⟨hanswered.2.2.1, version_of_contents_eq hsaves (by omega) hfaithful.contents⟩
    · intro h
      obtain ⟨hleast, hversion⟩ := h.resolve_left (not_not.2 hsaves)
      refine ⟨fun junk call hcall => ?_, fun junk junk' => ?_, fun junk => ?_⟩
      · rw [calls_eq hsaves, List.mem_singleton] at hcall
        rw [hcall]
        exact ⟨hsaves.buildInfo, hsaves.query, hleast, size_of_nonneg (by omega)⟩
      · rw [calls_eq hsaves, calls_eq hsaves, contents_congr hversion]
      · obtain ⟨status, c, hexec, -⟩ := ends_capture a junk
        exact ⟨status, c, hexec⟩
  · refine iff_of_true ⟨fun junk call hcall => ?_, fun junk junk' => ?_, fun junk => ?_⟩ (.inl hsaves)
    · rw [calls_nil hsaves] at hcall
      cases hcall
    · rw [calls_nil hsaves, calls_nil hsaves]
    · obtain ⟨status, c, hexec, -⟩ := ends_capture a junk
      exact ⟨status, c, hexec⟩

/-- A boot at which the second panic query times out. -/
def secondQueryFails : Answers where
  located := efiSuccess
  timeStatus := efiSuccess
  time := ⟨2023, 1, 1, 0, 0, 0⟩
  allocated := efiSuccess
  buildInfo := .returned (List.replicate 40 0x2e) (by decide)
  query := .returned [1, 2, 1, 0xDE] (by decide)
  requery := .failed (-EcStatus.timeout.code) (by decide)
  written := efiSuccess

/-- The saved panic is overwritten by a part of the header, and no record. -/
theorem entryPoint_secondQueryFails : ¬∀ a, Faithful 0 a := by
  intro h
  have hsaves : secondQueryFails.Saves := by
    constructor
    all_goals decide
  have hanswered := (h secondQueryFails).answered (fun _ => 0) _
    (by rw [calls_eq hsaves]; exact List.mem_singleton_self _)
  exact absurd hanswered.2.2.1 (by decide)

end FrameworkHacks.Panic
