import FrameworkHacks.ECTool.ReflashServices
import FrameworkHacks.Null.Contract
import FrameworkHacks.Null.Reflash

/-!
# The tool on the simulated EC

`mCrosECProtocol` of CrosECNullLib, and the services of `ectool` over it. They are services with a flash behind them
(`reflashServices`), one that is never locked. The version is read from the flash: `newVersion`.
-/

namespace FrameworkHacks.Null

open Effects ECTool Transport

variable {T : Type}

/-! ### The protocol -/

/-- `mCrosECProtocol` of CrosECNullLib. What a call does not store, the caller's buffer keeps. -/
def mCrosECProtocol : Handler CrosEc NullEc
  | .sendCommand command _ outdata outsize indata insize, ec =>
    match answer ec command.toNat (outdata.toList outsize.toNat) insize.toNat with
    | .ok a => .ok ((a.rv, indata.overlay a.response), a.ec)
    | .error r => .error r
  | .readMemory offset buffer length, ec =>
    match ((ecReadMemoryNullLpc offset length).exec boot ()).1 with
    | .ok (rv, stored) =>
      if stored.length ≤ buffer.size then .ok ((rv, ⟨buffer.bytes.overlay stored, buffer.size⟩), ec)
      else .error .fault
    | .error r => .error r

/-- `ectool` on the simulator. -/
def tool (host : Handler Host T) : Handler App (NullEc × T) := (mCrosECProtocol.sum host).through overProtocol

/-- Its services. -/
def toolServices (host : Handler Host T) : Handler Services (NullEc × T) := fun op => tool host (.inl op)

section Services

variable {host : Handler Host T} {argv : List String} {ec ec' : NullEc} {t t' : T}

theorem toolServices_local {op : ServiceOp} (hlocal : op.isLocal = true) {x : op.Ans}
    (hop : host (.inl ⟨op, hlocal⟩) t = .ok (x, t')) : toolServices host op (ec, t) = .ok (x, ec, t') := by
  refine Handler.through_ok ?_
  have hcall : overProtocol (.inl op) = callLocal op hlocal := by
    cases op <;> first | rfl | cases hlocal
  rw [hcall]
  simp only [callLocal, Prog.perform, Prog.exec, Handler.sum, hop]
  rfl

theorem hostServes (hhost : Cooperates host argv) : HostServes (toolServices host) argv := by
  intro op hlocal ec t
  obtain ⟨x, t', hop, hhelpful⟩ := hhost (.inl ⟨op, hlocal⟩) t
  exact ⟨x, t', toolServices_local hlocal hop, hhelpful⟩

/-! ### Commands -/

theorem toolServices_answer {c : HostCommand} (hc : Small c) {rv : Int} {response : List UInt8}
    (h : answer ec c.command c.outdata c.insize = .ok ⟨rv, response, ec'⟩)
    (hrv : -2147483648 ≤ rv ∧ rv < 2147483648) :
    toolServices host (.sendCommand c) (ec, t) =
      .ok (⟨rv, (Mem.overlay (fun _ => 0) response).toList rv.toNat⟩, ec', t) := by
  obtain ⟨hcommand, houtdata, hinsize⟩ := hc
  have hop : mCrosECProtocol (.sendCommand (UInt64.ofNat c.command) (UInt64.ofNat c.version) (Mem.ofList c.outdata)
      (UInt64.ofNat c.outdata.length) (fun _ => 0) (UInt64.ofNat c.insize)) ec =
        .ok ((rv, Mem.overlay (fun _ => 0) response), ec') := by
    simp only [mCrosECProtocol, toNat_ofNat_of_lt hcommand, toNat_ofNat_of_lt houtdata, toNat_ofNat_of_lt hinsize,
      Mem.toList_ofList, h]
  have hcall : (callSendCommand c).exec mCrosECProtocol ec =
      (.ok ⟨rv, (Mem.overlay (fun _ => 0) response).toList rv.toNat⟩, ec') := by
    rw [callSendCommand, Prog.exec_bind_ok (Prog.exec_perform hop)]
    simp only [Prog.exec_pure, Int32.toInt_ofInt_of_le hrv.1 hrv.2]
  refine Handler.through_ok ?_
  simp only [overProtocol, Prog.exec_inl, hcall]

theorem simulates_tool (hhost : Cooperates host argv) : Simulates (toolServices host) where
  locals ec t :=
    let ⟨m, t', hop, _⟩ := hostServes hhost .indeterminate rfl ec t
    ⟨m, t', hop⟩
  command {c} hc {ec ec'} t {rv response} hanswer hrv := by
    refine ⟨_, toolServices_answer hc hanswer hrv, fun hlength => ?_⟩
    rw [Mem.toList, ← List.map_take, List.take_range, hlength]
    exact (Mem.toList_congr fun i hi => Mem.overlay_lt _ hi).trans (Mem.toList_ofList response)

/-! ### Mapped memory -/

theorem answer_readMemory {offset length : Nat} (hpos : 0 < length) (hin : offset + length ≤ 254) :
    ecReadMemoryNullLpc (UInt64.ofNat offset) (UInt64.ofNat length) =
      pure ((length : Int), ((Mem.ofList ecmemBin).drop offset).toList length) := by
  have hoffset := toNat_ofNat_of_lt (show offset < 2 ^ 64 by omega)
  have hlength := toNat_ofNat_of_lt (show length < 2 ^ 64 by omega)
  have hsum : (UInt64.ofNat offset + UInt64.ofNat length).toNat = offset + length := by
    rw [UInt64.toNat_add, hoffset, hlength]
    exact Nat.mod_eq_of_lt (by omega)
  have hoff : toInt offset = offset := toInt_of_lt (by omega)
  have hlen : toInt length = length := toInt_of_lt (by omega)
  have hcopy : (ecmemBinBuf.copyOut offset length : Prog Boot Mem) = pure ((Mem.ofList ecmemBin).drop offset) :=
    Buf.copyOut_of_le (b := ecmemBinBuf) (by rw [ecmemBinBuf, ecmemBin_length]; exact hin)
  rw [ecReadMemoryNullLpc, hsum, hoffset, hlength, if_neg (by simp only [ecMemmapSize]; omega), if_pos hpos, hoff,
    if_neg (by omega), Int.toNat_natCast, hcopy, pure_bind, hlen]

theorem maps : Maps (toolServices host) (Mem.ofList ecmemBin) := by
  intro offset length ec t hpos hin
  have hlength := toNat_ofNat_of_lt (show length < 2 ^ 64 by omega)
  have hop : mCrosECProtocol (.readMemory (UInt64.ofNat offset) ⟨fun _ => 0, length⟩ (UInt64.ofNat length)) ec =
      .ok (((length : Int), ⟨Mem.overlay (fun _ => 0) (((Mem.ofList ecmemBin).drop offset).toList length), length⟩),
        ec) := by
    simp only [mCrosECProtocol, answer_readMemory hpos (show offset + length ≤ 254 by omega), Prog.exec_pure,
      Mem.toList_length, Nat.le_refl, if_true]
  have hcall : (callReadMemory offset length).exec mCrosECProtocol ec =
      (.ok (Mem.overlay (fun _ => 0) (((Mem.ofList ecmemBin).drop offset).toList length)), ec) := by
    rw [callReadMemory, Prog.exec_bind_ok (Prog.exec_perform hop)]
    rfl
  refine ⟨Mem.overlay (fun _ => 0) (((Mem.ofList ecmemBin).drop offset).toList length),
    Handler.through_ok (by simp only [overProtocol, Prog.exec_inl, hcall]), fun i hi => ?_⟩
  rw [Mem.overlay_lt _ (by rwa [Mem.toList_length]), Mem.ofList_toList _ hi, Mem.drop_apply]

set_option maxRecDepth 2000 in
/-- The dump was taken on mains power, with the battery charged. -/
theorem ecmemBin_ready : Ready (Mem.ofList ecmemBin) := ⟨by decide, by decide, .inr (by decide)⟩

theorem reflashServices (hhost : Cooperates host argv) :
    ReflashServices (toolServices host) argv NullEc.gMutableFlash (fun _ => True) 240 (Mem.ofList ecmemBin) where
  toFlashServices := (simulates_tool hhost).flashServices
  host := hostServes hhost
  maps := maps
  notified ec t flags := by
    have hlock : answer ec ecCmdFlashNotified [flags] 0 = .ok ⟨0, [], ec⟩ := rfl
    exact (simulates_tool hhost).served (small (by decide) (by simp) (by decide)) hlock (by decide) rfl
      ⟨rfl, fun _ => trivial⟩

end Services

end FrameworkHacks.Null
