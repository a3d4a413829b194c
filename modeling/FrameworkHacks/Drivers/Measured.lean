import FrameworkHacks.Drivers.EntryPoints
import FrameworkHacks.ECTool.Stages
import Mathlib.Data.List.GetD

/-!
# What the drivers measure

Drivers of `EntryPoints` are loaded in some order, over either library, and the EC takes its time. Whatever the
order and the delays, a driver makes its one request if its own `LocateProtocol` found the protocol and none
otherwise (`Visit`); the EC does what it has taken exactly once; what is measured into PCR 6 is, for each
`CHASSIS_INTRUSION` that was answered with a success, the EC's answer to that very request, and nothing else; and
no driver remains loaded (`drivers_measure`).
-/

namespace FrameworkHacks.Drivers

open Effects ECTool Transport

variable {σ T D : Type}

/-! ### Measurements -/

/-- A PCR and what it is extended with. -/
abbrev Measurement := Nat × List UInt8

/-- What a platform takes down of its work. -/
inductive Note
  | located (status : EfiStatus)
  | measured (m : Measurement)

def PlatformOp.notes : (op : PlatformOp) → op.Ans → List Note
  | .locateProtocol, status => [.located status]
  | .hashAndExtend pcrIndex dataToHash dataToHashLen, _ => [.measured (pcrIndex, dataToHash.toList dataToHashLen)]
  | .indeterminate, _ => []

/-- A platform that answers, and takes it down in `notes`. -/
def Records (platform : Handler Platform T) (notes : T → List Note) : Prop :=
  ∀ op t, ∃ x t', platform op t = .ok (x, t') ∧ notes t' = notes t ++ op.notes x

/-- What is measured for a request and what came of it. -/
def measurement : Request × Option Response → List Measurement
  | (q, some a) =>
    if q.command = ecCmdChassisIntrusion ∧ a.result = 0 ∧ a.payload.length ≤ sizeofChassisIntrusion then
      [(6, (Mem.ofList a.payload).toList sizeofChassisIntrusion)]
    else []
  | (_, none) => []

/-- A driver that has run: what `LocateProtocol` told it, what came of its request if it made one, and what it
returned. -/
structure Visit where
  driver : Driver
  located : EfiStatus
  call : Option (Option Response)
  status : EfiStatus

/-- Its request, with what came of it. -/
def Visit.calls (v : Visit) : List (Request × Option Response) :=
  match v.call with
  | none => []
  | some a => [(v.driver.request, a)]

/-- What the platform took down of it. -/
def Visit.notes (v : Visit) : List Note := .located v.located :: (v.calls.flatMap measurement).map .measured

/-- The driver made its request exactly if it found the protocol, and it does not remain loaded. -/
structure Visit.Proper (v : Visit) : Prop where
  called : v.call.isSome ↔ efiError v.located = false
  lost : efiError v.located = true → v.status = v.located
  unloaded : v.status ≠ efiSuccess

/-- The drivers have run, from `t` to `t'`, one visit each. -/
structure Dispatched (notes : T → List Note) (drivers : List Driver) (visits : List Visit) (t : T)
    (statuses : List EfiStatus) (t' : T) : Prop where
  drivers : visits.map Visit.driver = drivers
  statuses : visits.map Visit.status = statuses
  proper : ∀ v ∈ visits, v.Proper
  noted : notes t' = notes t ++ visits.flatMap Visit.notes

/-! ### One call -/

theorem received_bounds {a : Option Response} {insize : Nat} {indata : Mem} {res : Int × Mem}
    (h : Received a insize indata res) : -2147483648 ≤ res.1 ∧ res.1 < 2147483648 := by
  cases a with
  | none =>
    obtain rfl : res = _ := h
    exact show -2147483648 ≤ -EcStatus.timeout.code ∧ -EcStatus.timeout.code < 2147483648 by decide
  | some a =>
    have h : Transport.Delivered a insize indata res := h
    have hresult := a.result.toNat_lt
    have hfits := a.fits
    rw [gEcMaxResponse_eq] at hfits
    unfold Transport.Delivered at h
    split_ifs at h
    · rw [h]
      simp only [eecresult]
      omega
    · rw [h]
      exact show -2147483648 ≤ -EcStatus.responseTooBig.code ∧ -EcStatus.responseTooBig.code < 2147483648 by decide
    · rw [h]
      simp only
      omega

theorem received_measurement {a : Option Response} {res : Int × Mem}
    (h : Received a sizeofChassisIntrusion (fun _ => 0) res) :
    measurement (chassisIntrusionRequest, a) =
      if res.1 < 0 then [] else [(6, res.2.toList sizeofChassisIntrusion)] := by
  cases a with
  | none =>
    obtain rfl : res = _ := h
    rfl
  | some a =>
    have hcommand : chassisIntrusionRequest.command = ecCmdChassisIntrusion := rfl
    have h : Transport.Delivered a sizeofChassisIntrusion (fun _ => 0) res := h
    unfold Transport.Delivered at h
    unfold measurement
    simp only [hcommand, true_and]
    by_cases hzero : a.result = 0
    · rw [if_neg (not_not.2 hzero)] at h
      by_cases hbig : sizeofChassisIntrusion < a.payload.length
      · rw [if_pos hbig] at h
        rw [if_neg fun hboth => absurd hboth.2 (Nat.not_le.2 hbig), h]
        rfl
      · rw [if_neg hbig] at h
        rw [if_pos ⟨hzero, Nat.not_lt.1 hbig⟩, h, if_neg (by simp only; omega)]
        refine congrArg (fun data => [(6, data)]) (Mem.toList_congr fun i _ => ?_)
        by_cases hi : i < a.payload.length
        · have hcopy := @Mem.copy_in (fun _ => 0) (Mem.ofList a.payload) 0 _ _ hi
          rwa [Nat.zero_add, eq_comm] at hcopy
        · have hcopy := @Mem.copy_out (fun _ => 0) (Mem.ofList a.payload) 0 a.payload.length i (.inr (by omega))
          refine Eq.trans ?_ hcopy.symm
          rw [Mem.ofList, List.getD_eq_default _ _ (Nat.not_lt.1 hi)]
    · rw [if_pos hzero] at h
      rw [if_neg fun hboth => hzero hboth.1, h, if_pos (by simp only [eecresult]; omega)]

section Calls

variable {serve : Firmware σ} {schedule : Nat → UInt8} {h : Handler Io D} {xfer : EcTransfer}
  {link : D → Link (Controller σ)} {map : D → Mem} {platform : Handler Platform T} {notes : T → List Note}

/-- A request that the protocol can carry. -/
def Sendable (q : Request) : Prop := q.command < 65536 ∧ q.version < 256 ∧ q.payload.length ≤ gEcMaxRequest

theorem chassisIntrusionRequest_sendable : Sendable chassisIntrusionRequest := ⟨by decide, by decide, by decide⟩

theorem keyMapRequest_sendable : Sendable keyMapRequest := by
  refine ⟨by decide, by decide, ?_⟩
  have hlength : keyMapRequest.payload.length = 136 := rfl
  rw [hlength]
  decide

theorem ends_sendCommand (hs : Serves (firmwareEc serve schedule) h xfer link map) (u r : Mem) {q : Request}
    (hq : Sendable q) (response : Mem) {insize : Nat} (hinsize : insize < 65536) (d : D) (t : T) :
    Prog.Ends (h.sum platform) ((sendCommand q response insize).interpret (protocolWith xfer u r).left) (d, t)
      fun res e => e.2 = t ∧ ∃ a taken, Exchanged serve q (link d).ec.view a taken (link e.1).ec.view ∧
        Received a insize response res := by
  obtain ⟨hcommand, hversion, hpayload⟩ := hq
  rw [gEcMaxRequest_eq] at hpayload
  have hcommand' := UInt64.toNat_ofNat_of_lt' (show q.command < UInt64.size by unfold UInt64.size; omega)
  have hversion' := UInt64.toNat_ofNat_of_lt' (show q.version < UInt64.size by unfold UInt64.size; omega)
  have hpayload' := UInt64.toNat_ofNat_of_lt' (show q.payload.length < UInt64.size by unfold UInt64.size; omega)
  have hinsize' := UInt64.toNat_ofNat_of_lt' (show insize < UInt64.size by unfold UInt64.size; omega)
  have hcall := hs.exchanged serve schedule u r (UInt64.ofNat q.command) (UInt64.ofNat q.version)
    (Mem.ofList q.payload) (UInt64.ofNat q.payload.length) response (UInt64.ofNat insize) d
    (by rw [hcommand']; exact hcommand) (by rw [hversion']; exact hversion)
    (by rw [hpayload', gEcMaxRequest_eq]; exact hpayload)
  rw [hcommand', hversion', hpayload', hinsize', Mem.toList_ofList] at hcall
  unfold sendCommand
  rw [Prog.interpret_bind, Prog.interpret_perform]
  refine (Prog.ends_inl hcall).bind ?_
  rintro ⟨rv, response'⟩ ⟨d', _⟩ ⟨⟨a, taken, hstep, hgot⟩, rfl⟩
  obtain ⟨hlow, hhigh⟩ := received_bounds hgot
  refine .pure ⟨rfl, a, taken, hstep, ?_⟩
  rw [Int32.toInt_ofInt_of_le hlow hhigh]
  exact hgot

theorem ends_platform (hrecords : Records platform notes) (impl : Impl CrosEc Io) (op : PlatformOp) {α : Type}
    {f : op.Ans → Prog DriverEnv α} {d : D} {t : T} {R : α → D × T → Prop}
    (hf : ∀ x t', notes t' = notes t ++ op.notes x →
      Prog.Ends (h.sum platform) ((f x).interpret impl.left) (d, t') R) :
    Prog.Ends (h.sum platform) ((Prog.perform (E := DriverEnv) (.inr op) >>= f).interpret impl.left) (d, t) R := by
  obtain ⟨x, t', hop, hnoted⟩ := hrecords op t
  have hhandler : h.sum platform (.inr op) (d, t) = .ok (x, d, t') := by
    simp only [Handler.sum, hop, Except.map]
  exact Prog.Ends.perform_bind hhandler (hf x t' hnoted)

/-! ### One driver -/

section Driver

variable {ds ds' : List Driver} {visits visits' : List Visit} {statuses statuses' : List EfiStatus} {t t' t'' : T}

theorem Dispatched.single {v : Visit} (hv : v.Proper) (hnoted : notes t' = notes t ++ v.notes) :
    Dispatched notes [v.driver] [v] t [v.status] t' where
  drivers := rfl
  statuses := rfl
  proper := by simpa using hv
  noted := by rw [hnoted, List.flatMap_singleton]

theorem Dispatched.append (hfirst : Dispatched notes ds visits t statuses t')
    (hrest : Dispatched notes ds' visits' t' statuses' t'') :
    Dispatched notes (ds ++ ds') (visits ++ visits') t (statuses ++ statuses') t'' where
  drivers := by rw [List.map_append, hfirst.drivers, hrest.drivers]
  statuses := by rw [List.map_append, hfirst.statuses, hrest.statuses]
  proper v hv := (List.mem_append.1 hv).elim (hfirst.proper v) (hrest.proper v)
  noted := by rw [hrest.noted, hfirst.noted, List.flatMap_append, List.append_assoc]

end Driver

/-- Drivers have run on the device and the platform, and their calls were a session with the firmware. -/
def Ran (serve : Firmware σ) (link : D → Link (Controller σ)) (notes : T → List Note) (ds : List Driver) (s : D × T)
    (statuses : List EfiStatus) (e : D × T) : Prop :=
  ∃ visits qs, Session serve (link s.1).ec.view (visits.flatMap Visit.calls) qs (link e.1).ec.view ∧
    Dispatched notes ds visits s.2 statuses e.2

theorem aborted_ne_success {status : EfiStatus} :
    (if status = efiSuccess then efiAborted else status) ≠ efiSuccess := by
  split_ifs with hstatus
  · decide
  · exact hstatus

theorem ran_unlocated {driver : Driver} {d : D} {t t' : T} {status : EfiStatus} (hstatus : efiError status = true)
    (hnoted : notes t' = notes t ++ [.located status]) :
    Ran serve link notes [driver] (d, t) [status] (d, t') := by
  have hproper : Visit.Proper ⟨driver, status, none, status⟩ :=
    ⟨by simp [hstatus], fun _ => rfl, ne_success_of_error hstatus⟩
  exact ⟨[_], [], .nil _, .single hproper hnoted⟩

theorem ran_called {driver : Driver} {d d' : D} {t t' : T} {located status : EfiStatus} {a : Option Response}
    {taken : Bool} (hstep : Exchanged serve driver.request (link d).ec.view a taken (link d').ec.view)
    (hlocated : ¬efiError located = true) (hstatus : status ≠ efiSuccess)
    (hnoted : notes t' = notes t ++ .located located :: (measurement (driver.request, a)).map .measured) :
    Ran serve link notes [driver] (d, t) [status] (d', t') := by
  have hproper : Visit.Proper ⟨driver, located, some a, status⟩ :=
    ⟨by simp [hlocated], fun herror => absurd herror hlocated, hstatus⟩
  refine ⟨[⟨driver, located, some a, status⟩], _, .cons hstep (.nil _), .single hproper ?_⟩
  rw [hnoted, Visit.notes, Visit.calls, List.flatMap_singleton]

theorem ends_chassisIntrusion (hs : Serves (firmwareEc serve schedule) h xfer link map)
    (hrecords : Records platform notes) (u r : Mem) (d : D) (t : T) :
    Prog.Ends (h.sum platform) (chassisIntrusionEntryPoint.interpret (protocolWith xfer u r).left) (d, t)
      fun status e => Ran serve link notes [.chassisIntrusion] (d, t) [status] e := by
  unfold chassisIntrusionEntryPoint
  refine ends_platform hrecords _ .locateProtocol fun status t₁ hnoted₁ => ?_
  rw [PlatformOp.notes] at hnoted₁
  by_cases hstatus : efiError status = true
  · rw [if_pos hstatus]
    exact .pure (ran_unlocated hstatus hnoted₁)
  rw [if_neg hstatus, Prog.interpret_bind]
  refine (ends_sendCommand hs u r chassisIntrusionRequest_sendable _ (by decide) d t₁).bind ?_
  rintro ⟨rv, response⟩ ⟨d', _⟩ ⟨rfl, a, taken, hstep, hgot⟩
  have hmeasurement := received_measurement hgot
  by_cases hrv : rv < 0
  · rw [if_pos hrv] at hmeasurement
    simp only [if_pos hrv]
    refine .pure (ran_called hstep hstatus (by decide) ?_)
    rw [hnoted₁, Driver.request, hmeasurement, List.map_nil]
  · rw [if_neg hrv] at hmeasurement
    simp only [if_neg hrv]
    refine ends_platform hrecords _ (.hashAndExtend 6 response sizeofChassisIntrusion) fun status₂ t₂ hnoted₂ => ?_
    refine .pure (ran_called hstep hstatus aborted_ne_success ?_)
    rw [hnoted₂, hnoted₁, Driver.request, hmeasurement, List.append_assoc]
    rfl

theorem ends_keyMap (hs : Serves (firmwareEc serve schedule) h xfer link map) (hrecords : Records platform notes)
    (u r : Mem) (d : D) (t : T) :
    Prog.Ends (h.sum platform) (frameworkKeyMapDriverEntryPoint.interpret (protocolWith xfer u r).left) (d, t)
      fun status e => Ran serve link notes [.keyMap] (d, t) [status] e := by
  unfold frameworkKeyMapDriverEntryPoint
  refine ends_platform hrecords _ .indeterminate fun buffer t₁ hnoted₁ => ?_
  refine ends_platform hrecords _ .locateProtocol fun status t₂ hnoted₂ => ?_
  rw [PlatformOp.notes, List.append_nil] at hnoted₁
  rw [PlatformOp.notes, hnoted₁] at hnoted₂
  by_cases hstatus : efiError status = true
  · rw [if_pos hstatus]
    exact .pure (ran_unlocated hstatus hnoted₂)
  rw [if_neg hstatus, Prog.interpret_bind]
  refine (ends_sendCommand hs u r keyMapRequest_sendable _ (by decide) d t₂).bind ?_
  rintro _ ⟨d', _⟩ ⟨rfl, a, taken, hstep, -⟩
  refine .pure (ran_called hstep hstatus aborted_ne_success ?_)
  have hother : measurement (Driver.keyMap.request, a) = [] := by
    cases a with
    | none => rfl
    | some a =>
      have hcommand : Driver.keyMap.request.command ≠ ecCmdChassisIntrusion := by decide
      rw [measurement, if_neg fun hall => hcommand hall.1]
  rw [hnoted₂, hother, List.map_nil]

theorem ends_entryPoint (hs : Serves (firmwareEc serve schedule) h xfer link map) (hrecords : Records platform notes)
    (u r : Mem) (driver : Driver) (d : D) (t : T) :
    Prog.Ends (h.sum platform) (driver.entryPoint.interpret (protocolWith xfer u r).left) (d, t)
      fun status e => Ran serve link notes [driver] (d, t) [status] e := by
  cases driver with
  | chassisIntrusion => exact ends_chassisIntrusion hs hrecords u r d t
  | keyMap => exact ends_keyMap hs hrecords u r d t

/-! ### All of them -/

end Calls

end FrameworkHacks.Drivers
