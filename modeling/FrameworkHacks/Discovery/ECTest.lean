import FrameworkHacks.ECTool.Main
import FrameworkHacks.Discovery.Hardware

/-!
# ECTest.c

`ectest` has the two transfers and the host command of the libraries once more, as static functions. It looks for
an EC through both transfers, the second one that answers wins, and sends one command through it.

Its look at the memory map is that of the constructors and its host command that of the libraries (`ends_ecReadMem`,
`ecSendCommandOneWay_eq`). So on either hardware it finds the EC through the transfer whose library finds it, makes
one exchange with it, and reports what came of it; without an EC it ends with a device error and leaves the EC
alone (`ectest_diagnosis`).
-/

namespace FrameworkHacks.Discovery

open Effects Transport

open ECTool (EfiStatus efiSuccess efiError efiDeviceError StartupOp Startup)

/-! ### The code -/

/-- `NpcxXfer`, the text of `ECTransfer` of AzaleaCrosECLib -/
def npcxXfer : EcTransfer := Azalea.ecTransfer

/-- `MecXfer`, the text of `ECTransfer` of MicrochipCrosECLib -/
def mecXfer : EcTransfer := Mec.ecTransfer

def ecReadMem (xfer : EcTransfer) (offset : UInt64) (buffer : Buf) (length : UInt64) : Prog Io (Int × Buf) := do
  let address ← addInt 0x100 (toInt offset.toNat)
  let buffer ← xfer .read (UInt16.ofInt address) buffer 0 length.toUInt16
  return (toIntn length.toNat, buffer)

/-- The request header of a command without a version and without a payload. -/
def oneWayHeader (u : Mem) (command : UInt64) : Mem :=
  let u := u.set 0 ecHostRequestVersion
  let u := u.set 1 0
  let u := u.set16 2 command.toUInt16.toNat
  let u := u.set 4 0
  let u := u.set 5 0
  u.set16 6 0

/-- `ECSendCommandOneWay`; `u` and `r` are what its two unions hold when it is called. -/
def ecSendCommandOneWay (xfer : EcTransfer) (u r : Mem) (command : UInt64) (indata : Mem) (insize : UInt64) :
    Prog Io (Int × Mem) := do
  let u : Buf := ⟨oneWayHeader u command, ecLpcHostPacketSize⟩
  let csum ← ecChecksumBuffer u sizeofEcHostRequest
  let u ← u.store 1 (-csum)
  if (← ecWaitForReady ecLpcAddrHostCmd 1000000) ≠ 0 then
    return (-EcStatus.timeout.code, indata)
  let _ ← xfer .write 0 u 0 8
  -- start the command
  ioWrite8 ecLpcAddrHostCmd ecCommandProtocol3
  if (← ecWaitForReady ecLpcAddrHostCmd 1000000) ≠ 0 then
    return (-EcStatus.timeout.code, indata)
  let i ← ioRead8 ecLpcAddrHostData
  if i ≠ 0 then
    return (-eecresult - i.toNat, indata)
  receiveResponse xfer r indata insize

@[reducible] def TestApp : Signature := Io.sum Startup

def shellInitialize : Prog TestApp EfiStatus := Prog.perform (E := TestApp) (.inr .shellInitialize)

def print (text : String) : Prog TestApp Unit := Prog.perform (E := TestApp) (.inr (.print (ascii text)))

/-- `%d` of a value that is passed as 64 bits. -/
def decimal (v : Int) : String := toString (Int32.ofInt v).toInt

/-- `%x` -/
def hexadecimal (v : UInt64) : String := String.ofList ((Nat.toDigits 16 v.toUInt32.toNat).map Char.toUpper)

/-- `Ident[0] == 'E' && Ident[1] == 'C'` -/
def isEc (ident : Buf) : Bool := ident.bytes 0 = 0x45 ∧ ident.bytes 1 = 0x43

/-- Looks through one of the transfers: it is the new `Xfer` if an EC answers. -/
def tryTransfer (title : String) (transfer : EcTransfer) (ident : Buf) (xfer : Option EcTransfer) :
    Prog TestApp (Buf × Option EcTransfer) := do
  print title
  let (_, ident) ← (ecReadMem transfer ecMemmapId ident 2).inl
  if isEc ident then
    print "OK!\n"
    return (ident, some transfer)
  else
    print "NAK!\n"
    return (ident, xfer)

/-- What is printed of the command's value and of `ProtoVersion`. -/
def commandReport (rv : Int) (protoVersion : Nat) : String :=
  if rv < 0 then "NAK (" ++ decimal rv ++ ")\n"
  else if rv = 0 then "??? (No Data)\n"
  else "OK (" ++ decimal protoVersion ++ ")\n"

/-- `UefiMain`; `ident`, `u` and `r` are indeterminate. -/
def uefiMain (ident u r : Mem) : Prog TestApp EfiStatus := do
  let status ← shellInitialize
  if efiError status then
    print ("Failed to initialize shell lib: " ++ hexadecimal status ++ "\n")
    return status
  let (ident, xfer) ← tryTransfer "MEC LPC ReadMem... " mecXfer ⟨ident, 2⟩ none
  let (_, xfer) ← tryTransfer "NPCX High LPC ReadMem... " npcxXfer ⟨(ident.bytes.set 0 0).set 1 0, 2⟩ xfer
  match xfer with
  | none =>
    print "No EC detected; bailing.\n"
    return efiDeviceError
  | some xfer =>
    print "Host Command Interface... "
    let (rv, protoVersion) ← (ecSendCommandOneWay xfer u r 0 (fun _ => 0xFF) 4).inl
    print (commandReport rv (protoVersion.le32 0))
    return efiSuccess

/-! ### The same as in the libraries -/

/-- **The test sends its command as the libraries do**, whatever the payload would have been. -/
theorem ecSendCommandOneWay_eq (xfer : EcTransfer) (u r : Mem) (command : UInt64) (outdata indata : Mem)
    (insize : UInt64) :
    ecSendCommandOneWay xfer u r command indata insize =
      ecSendCommandWith xfer u r command 0 outdata 0 indata insize := by
  have hsmall : ¬((0 : UInt64) + 8 > 256) := by decide
  have hheader : requestHeader u command 0 0 = oneWayHeader u command := rfl
  have hfill : fillRequest u command 0 outdata 0 = (do
      let csum ← ecChecksumBuffer ⟨oneWayHeader u command, ecLpcHostPacketSize⟩ sizeofEcHostRequest
      Buf.store ⟨oneWayHeader u command, ecLpcHostPacketSize⟩ 1 (-csum)) := by
    have hcopy : (Buf.copyIn ⟨oneWayHeader u command, ecLpcHostPacketSize⟩ sizeofEcHostRequest outdata
        (0 : UInt64).toNat : Prog Io Buf) = pure ⟨oneWayHeader u command, ecLpcHostPacketSize⟩ := by
      rw [Buf.copyIn_of_le outdata (show 8 + 0 ≤ 256 by decide)]
      exact congrArg (fun bytes => pure (Buf.mk bytes ecLpcHostPacketSize)) (Mem.copy_zero _ _ _)
    simp only [fillRequest, hheader, hcopy, pure_bind]
    rfl
  unfold ecSendCommandWith
  rw [if_neg hsmall, hfill, bind_assoc]
  rfl

theorem ecReadMem_eq (xfer : EcTransfer) (buffer : Buf) :
    ecReadMem xfer ecMemmapId buffer 2 = ecReadMemoryWith xfer ecMemmapId buffer 2 := by
  have hguard : ¬(ecMemmapId + 2).toNat > ecMemmapSize := by decide
  have hlen : (2 : UInt64) > 0 := by decide
  unfold ecReadMemoryWith
  rw [if_neg hguard, if_pos hlen]
  rfl

section Hardware

variable {σ D : Type} {h : Handler Io D} {xfer : EcTransfer} {d : D}

theorem ends_ecReadMem {ident : Mem} {Q : Bool → D → Prop}
    (hdetect : Prog.Ends h (detect (ecReadMemoryWith xfer) ident) d Q) :
    Prog.Ends h (ecReadMem xfer ecMemmapId ⟨ident, 2⟩ 2) d fun res d' => Q (isEc res.2) d' := by
  have hread : Prog.Post h (ecReadMem xfer ecMemmapId ⟨ident, 2⟩ 2) d fun res _ => res.1 = 2 := by
    refine Prog.Post.bind (Q := fun _ _ => True) (fun _ _ _ => trivial) fun address d₁ _ => ?_
    exact Prog.Post.bind (Q := fun _ _ => True) (fun _ _ _ => trivial) fun buffer d₂ _ => .ret rfl
  obtain ⟨found, d', hexec, hQ⟩ := hdetect
  rw [detect, ← ecReadMem_eq, Prog.exec_bind] at hexec
  rcases hrun : (ecReadMem xfer ecMemmapId ⟨ident, 2⟩ 2).exec h d with ⟨_ | ⟨n, b⟩, d₁⟩
  · rw [hrun] at hexec
    cases hexec
  · obtain rfl : n = 2 := hread _ _ hrun
    rw [hrun] at hexec
    cases hexec
    refine ⟨_, d', hrun, ?_⟩
    simpa [isEc] using hQ

end Hardware

/-! ### What the test finds out -/

/-- A shell that starts with this status, and what was printed. -/
def terminal (status : EfiStatus) : Handler Startup (List (List UInt8))
  | .shellInitialize, log => .ok (status, log)
  | .handleProtocol, log => .ok (none, log)
  | .locateProtocol, log => .ok (efiSuccess, log)
  | .print text, log => .ok ((), log ++ [text])

def lookReport (title : String) (found : Bool) : List (List UInt8) :=
  [ascii title, ascii (bif found then "OK!\n" else "NAK!\n")]

/-- What is printed of the two looks. -/
def looksReport (mec npcx : Bool) : List (List UInt8) :=
  lookReport "MEC LPC ReadMem... " mec ++ lookReport "NPCX High LPC ReadMem... " npcx

section Diagnosis

variable {σ D : Type} {h : Handler Io D} {xfer : EcTransfer} {link : D → Link (Controller σ)} {map : D → Mem}
  {serve : Firmware σ} {schedule : Nat → UInt8} {right : Library} {started : EfiStatus}

/-- What the test returns and prints, with the hardware it began with and what became of it. -/
inductive Diagnosis (serve : Firmware σ) (link : D → Link (Controller σ)) (map : D → Mem) (right : Library)
    (started : EfiStatus) (d : D) : EfiStatus → D × List (List UInt8) → Prop
  | noShell : efiError started = true →
      Diagnosis serve link map right started d started
        (d, [ascii ("Failed to initialize shell lib: " ++ hexadecimal started ++ "\n")])
  | noEc {d' : D} : efiError started = false → ¬ShowsId (map d) → (link d').ec = (link d).ec →
      Diagnosis serve link map right started d efiDeviceError
        (d', looksReport false false ++ [ascii "No EC detected; bailing.\n"])
  | found {d' : D} {a : Option Response} {taken : Bool} {rv : Int} {protoVersion : Mem} :
      efiError started = false → ShowsId (map d) →
      Exchanged serve ⟨0, 0, []⟩ (link d).ec.view a taken (link d').ec.view →
      Received a 4 (fun _ => 0xFF) (rv, protoVersion) →
      Diagnosis serve link map right started d efiSuccess
        (d', looksReport (right = .microchip) (right = .azalea) ++
          [ascii "Host Command Interface... ", ascii (commandReport rv (protoVersion.le32 0))])

theorem ends_print (text : String) (d : D) (log : List (List UInt8)) :
    Prog.Ends (h.sum (terminal started)) (print text) (d, log) fun _ s => s = (d, log ++ [ascii text]) :=
  .perform rfl rfl

theorem ends_tryTransfer {title : String} {transfer : EcTransfer} {ident : Mem} {best : Option EcTransfer} {d : D}
    {log : List (List UInt8)} {Q : Bool → D → Prop}
    (hdetect : Prog.Ends h (detect (ecReadMemoryWith transfer) ident) d Q) :
    Prog.Ends (h.sum (terminal started)) (tryTransfer title transfer ⟨ident, 2⟩ best) (d, log) fun res s =>
      ∃ found, Q found s.1 ∧ s.2 = log ++ lookReport title found ∧ res.2 = bif found then some transfer else best := by
  refine (ends_print title d log).bind ?_
  rintro _ _ rfl
  refine (Prog.ends_inl (ends_ecReadMem hdetect)).bind ?_
  rintro ⟨n, b⟩ ⟨d', log'⟩ ⟨hQ, rfl⟩
  simp only at hQ
  cases hec : isEc b with
  | true =>
    rw [hec] at hQ
    simp only [hec, if_true]
    refine (ends_print "OK!\n" d' _).bind ?_
    rintro _ _ rfl
    exact .pure ⟨true, hQ, by simp [lookReport], rfl⟩
  | false =>
    rw [hec] at hQ
    simp only [hec, Bool.false_eq_true, if_false]
    refine (ends_print "NAK!\n" d' _).bind ?_
    rintro _ _ rfl
    exact .pure ⟨false, hQ, by simp [lookReport], rfl⟩

/-- The transfer of a library. -/
def transferOf : Library → EcTransfer
  | .azalea => Azalea.ecTransfer
  | _ => Mec.ecTransfer

/-- `quiet` is what a look takes for granted. -/
theorem ends_uefiMain (right : Library) (quiet : D → Prop)
    (hs : Serves (firmwareEc serve schedule) h (transferOf right) link map)
    (hright : IsHardware right)
    (hlook : ∀ id library d, IsHardware library → quiet d → Prog.Ends h (look id library) d fun found d' =>
      (found = true ↔ library = right ∧ ShowsId (map d)) ∧ Undisturbed link map d d')
    (hquiet : ∀ d d', Undisturbed link map d d' → quiet d → quiet d') (ident u r : Mem) (d : D) (hd : quiet d) :
    Prog.Ends (h.sum (terminal started)) (uefiMain ident u r) (d, []) (Diagnosis serve link map right started d) := by
  unfold uefiMain
  have hinit : (h.sum (terminal started)) (.inr .shellInitialize) (d, []) = .ok (started, d, []) := rfl
  refine Prog.Ends.perform_bind hinit ?_
  by_cases hstarted : efiError started = true
  · rw [if_pos hstarted]
    refine (ends_print _ d []).bind ?_
    rintro _ _ rfl
    exact .pure (.noShell hstarted)
  rw [if_neg hstarted]
  have hstarted : efiError started = false := by simpa using hstarted
  -- the two looks
  refine (ends_tryTransfer (hlook ident .microchip d nofun hd)).bind ?_
  rintro ⟨b, best⟩ ⟨d₁, log₁⟩ ⟨mec, ⟨hmec, hd₁⟩, rfl, rfl⟩
  refine (ends_tryTransfer (hlook ((b.bytes.set 0 0).set 1 0) .azalea d₁ nofun (hquiet d d₁ hd₁ hd))).bind ?_
  rintro ⟨b', best⟩ ⟨d₂, log₂⟩ ⟨npcx, ⟨hnpcx, hd₂⟩, rfl, rfl⟩
  simp only at hmec hd₁ hnpcx hd₂ ⊢
  rw [showsId_congr hd₁.map] at hnpcx
  have hec : (link d₂).ec = (link d).ec := hd₂.ec.trans hd₁.ec
  by_cases hshows : ShowsId (map d)
  · have hmec : mec = decide (right = .microchip) := by
      rw [Bool.eq_iff_iff, hmec, decide_eq_true_iff]
      exact ⟨fun hfound => hfound.1.symm, fun hlib => ⟨hlib.symm, hshows⟩⟩
    have hnpcx : npcx = decide (right = .azalea) := by
      rw [Bool.eq_iff_iff, hnpcx, decide_eq_true_iff]
      exact ⟨fun hfound => hfound.1.symm, fun hlib => ⟨hlib.symm, hshows⟩⟩
    have hbest : (bif npcx then some Azalea.ecTransfer else bif mec then some Mec.ecTransfer else none) =
        some (transferOf right) := by
      subst hmec hnpcx
      cases right with
      | microchip => rfl
      | azalea => rfl
      | null => exact absurd rfl hright
    rw [hbest]
    refine (ends_print _ d₂ _).bind ?_
    rintro _ _ rfl
    rw [ecSendCommandOneWay_eq _ u r 0 (fun _ => 0)]
    refine (Prog.ends_inl (hs.exchanged serve schedule u r 0 0 (fun _ => 0) 0 (fun _ => 0xFF) 4 d₂ (by decide)
      (by decide) (by decide))).bind ?_
    rintro ⟨rv, protoVersion⟩ ⟨d₃, log₃⟩ ⟨⟨a, taken, hstep, hgot⟩, rfl⟩
    refine (ends_print _ d₃ _).bind ?_
    rintro _ _ rfl
    rw [hec] at hstep
    subst hmec hnpcx
    have hfound : Diagnosis serve link map right started d efiSuccess (d₃, looksReport (right = .microchip)
        (right = .azalea) ++ [ascii "Host Command Interface... ", ascii (commandReport rv (protoVersion.le32 0))]) :=
      .found hstarted hshows hstep hgot
    exact .pure (by simpa [looksReport] using hfound)
  · have hmec : mec = false := by simpa [hshows] using hmec
    have hnpcx : npcx = false := by simpa [hshows] using hnpcx
    subst hmec hnpcx
    refine (ends_print _ d₂ _).bind ?_
    rintro _ _ rfl
    exact .pure (.noEc hstarted hshows hec)

end Diagnosis

end FrameworkHacks.Discovery
