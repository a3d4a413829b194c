import FrameworkHacks.Transport.Refinement
import FrameworkHacks.Transport.Transfer

/-!
# Both hardware libraries carry the exchange

`Mec.carries` and `Azalea.carries`: on its own device, each library's `ECTransfer` moves bytes
between a buffer and the packet window, and runs out of the buffer if it is asked to move more than
fits. With `Carries.sendCommand` each `ECSendCommand` is therefore `exchange`.
-/

namespace FrameworkHacks.Transport

open Effects

variable {σ : Type}

theorem holds_transferByte (direction : Direction) (port : Nat) (data : Buf) (i : Nat)
    (hport : 0x800 ≤ port) :
    Prog.Holds (· = .fault) (fun _ => True) (moves direction · = true)
      (fun data' => data'.size = data.size ∧ i < data.size) (transferByte direction port data i) := by
  have hcmd : port ≠ ecLpcAddrHostCmd := by simp only [ecLpcAddrHostCmd]; omega
  have hdata : port ≠ ecLpcAddrHostData := by simp only [ecLpcAddrHostData]; omega
  have hread (v : UInt8) : moves .read ⟨.ioRead8 port, v⟩ = true := by
    simp [moves, isTransfer, isResponseRead, hcmd, hdata]
  have hwrite (v : UInt8) : moves .write ⟨.ioWrite8 port v, ()⟩ = true := by
    simp [moves, isPacketWrite, isPortWrite, isDoorbell, hcmd]
  by_cases hi : i < data.size
  · cases direction with
    | write =>
      rw [transferByte, Buf.load_of_lt hi, pure_bind]
      exact fun _ => ⟨hwrite _, fun _ => ⟨rfl, hi⟩⟩
    | read =>
      unfold transferByte
      refine Prog.Holds.perform_bind fun v => ⟨hread v, fun _ => ?_⟩
      rw [Buf.store_of_lt _ hi]
      exact ⟨rfl, hi⟩
  · cases direction with
    | write =>
      rw [transferByte, Buf.load, if_neg hi]
      exact rfl
    | read =>
      unfold transferByte
      refine Prog.Holds.perform_bind fun v => ⟨hread v, fun _ => ?_⟩
      rw [Buf.store_of_ge _ (by omega)]
      exact rfl

namespace Mec

/-- What the exchange sees of the Microchip device. -/
def link (d : Emi σ) : Link σ := ⟨d.ec, d.window 0, d.reads⟩

theorem emi_answers (ec : Ec σ) (op : IoOp) (d : Emi σ) : ∃ y, emi ec op d = .ok y := by
  cases op with
  | ioRead8 port =>
    simp only [emi]
    split_ifs <;> exact ⟨_, rfl⟩
  | ioRead16 port =>
    simp only [emi]
    split_ifs <;> exact ⟨_, rfl⟩
  | ioWrite8 port v =>
    simp only [emi]
    split_ifs <;> exact ⟨_, rfl⟩
  | ioWrite16 port v =>
    simp only [emi]
    split_ifs <;> exact ⟨_, rfl⟩
  | stall n => exact ⟨_, rfl⟩

theorem emi_reads (ec : Ec σ) {op : IoOp} {d d' : Emi σ} {x : op.Ans} (h : emi ec op d = .ok (x, d')) :
    (link d).reads <+: (link d').reads := by
  cases op with
  | stall n => cases h; exact List.prefix_refl _
  | ioRead8 port =>
    simp only [emi] at h
    split_ifs at h <;> cases h
    · exact List.prefix_refl _
    · exact List.prefix_refl _
    · exact List.prefix_append _ _
    · exact List.prefix_refl _
  | ioRead16 port =>
    simp only [emi] at h
    split_ifs at h <;> cases h
    · exact List.prefix_append _ _
    · exact List.prefix_refl _
  | ioWrite8 port v =>
    simp only [emi] at h
    split_ifs at h <;> cases h <;> simp [link]
  | ioWrite16 port v =>
    simp only [emi] at h
    split_ifs at h <;> cases h <;> simp [link]

theorem le_register (i : Nat) : 0x800 ≤ mecLpcDataRegister0 + i := by
  simp only [mecLpcDataRegister0]
  omega

/-- The bytes a cursor has left behind were inside the buffer. -/
def Inside (data : Buf) (off : Nat) (c : Cursor) : Prop :=
  c.data.size = data.size ∧ (c.pos = 0 ∨ off + c.pos ≤ data.size)

theorem holds_dword (direction : Direction) (data : Buf) (i : Nat) :
    Prog.Holds (· = .fault) (fun _ => True) (moves direction · = true)
      (fun data' => data'.size = data.size ∧ i + 4 ≤ data.size) (transferDword direction data i) := by
  by_cases hi : i + 4 ≤ data.size
  · cases direction with
    | write =>
      rw [transferDword, Buf.copyOut_of_le hi, pure_bind]
      exact fun _ => ⟨rfl, fun _ _ => ⟨rfl, fun _ => ⟨rfl, hi⟩⟩⟩
    | read =>
      unfold transferDword
      refine Prog.Holds.perform_bind fun v => ⟨rfl, fun _ => ?_⟩
      refine Prog.Holds.perform_bind fun w => ⟨rfl, fun _ => ?_⟩
      rw [Buf.copyIn_of_le _ hi]
      exact ⟨rfl, hi⟩
  · cases direction with
    | write =>
      rw [transferDword, Buf.copyOut, if_neg hi]
      exact rfl
    | read =>
      unfold transferDword
      refine Prog.Holds.perform_bind fun v => ⟨rfl, fun _ => ?_⟩
      refine Prog.Holds.perform_bind fun w => ⟨rfl, fun _ => ?_⟩
      rw [Buf.copyIn, if_neg hi]
      exact rfl

theorem holds_head (direction : Direction) (address : UInt16) (data : Buf) (off : Nat) :
    Prog.Holds (· = .fault) (fun _ => True) (moves direction · = true)
      (fun c => pad address.toNat ≤ c.pos ∧ Inside data off c)
      (transferHead direction off ⟨0, address, data⟩) := by
  have hmod : (address % 4).toNat = address.toNat % 4 := by
    rw [UInt16.toNat_mod]
    rfl
  unfold transferHead
  by_cases hpad : address % 4 > 0
  · rw [if_pos hpad]
    refine Prog.Holds.perform_bind fun _ => ⟨moves_ioWrite16 .., fun _ => ?_⟩
    simp only [hmod]
    refine Prog.Holds.bind (Prog.Holds.forRange (I := fun i s => i = address.toNat % 4 + s.1 ∧
      s.2.size = data.size ∧ (s.1 = 0 ∨ off + s.1 ≤ data.size)) _ _ ?_ (0, data)
      ⟨rfl, rfl, .inl rfl⟩) ?_
    · rintro i ⟨pos, data'⟩ - - ⟨hi, hsize, -⟩
      refine (holds_transferByte direction _ data' (off + pos) (le_register i)).bind ?_
      intro data'' h
      simp only at hi hsize
      exact ⟨by omega, h.1.trans hsize, .inr (by simp only; omega)⟩
    · rintro ⟨pos, data'⟩ ⟨hpos, hs⟩
      refine ⟨?_, hs⟩
      simp only [pad] at hpos ⊢
      omega
  · have hzero : address.toNat % 4 = 0 := by
      have := mt UInt16.lt_iff_toNat_lt.2 hpad
      rw [hmod] at this
      simpa using this
    rw [if_neg hpad]
    exact ⟨by simp [pad, hzero], rfl, .inl rfl⟩

theorem holds_body (direction : Direction) (data : Buf) (off k : Nat) (size : UInt16) (c : Cursor)
    (hk : k ≤ c.pos) (hc : Inside data off c) :
    Prog.Holds (· = .fault) (fun _ => True) (moves direction · = true)
      (fun c' => k ≤ c'.pos ∧ Inside data off c') (transferBody direction off size c) := by
  unfold transferBody
  split
  · refine Prog.Holds.perform_bind fun _ => ⟨moves_ioWrite16 .., fun _ => ?_⟩
    refine Prog.Holds.loop_lt (I := fun c' => k ≤ c'.pos ∧ Inside data off c')
      (fun c => size.toNat - c.pos) ?_ _ _ ⟨hk, hc⟩ (by omega)
    rintro c ⟨hk, hsize, hpos⟩
    unfold dwordRound
    split
    · apply (holds_dword direction c.data (off + c.pos)).bind
      intro data'' h
      refine ⟨⟨?_, h.1.trans hsize, .inr ?_⟩, ?_⟩
      · simp only
        omega
      · simp only
        omega
      · simp only
        omega
    · exact ⟨hk, hsize, hpos⟩
  · exact ⟨hk, hc⟩

/-- A transfer that finishes was inside the buffer with every byte it moved, and every transfer
finishes or leaves the buffer. -/
theorem holds_reach (direction : Direction) (address : UInt16) (data : Buf) (off : Nat)
    (size : UInt16) :
    Prog.Holds (· = .fault) (fun _ => True) (moves direction · = true)
      (fun _ => 0 < reach address.toNat size.toNat →
        off + reach address.toNat size.toNat ≤ data.size)
      (ecTransfer direction address data off size) := by
  unfold ecTransfer reach
  apply (holds_head direction address data off).bind
  intro c hc
  apply (holds_body direction data off _ size c hc.1 hc.2).bind
  intro c hc
  obtain ⟨hpad, hsize, hc⟩ := hc
  unfold transferTail
  split
  · refine Prog.Holds.perform_bind fun _ => ⟨moves_ioWrite16 .., fun _ => ?_⟩
    refine (Prog.Holds.forRange (I := fun i data' => data'.size = data.size ∧
      (0 < i → off + (c.pos + i) ≤ data.size)) 0 (size.toNat - c.pos) ?_ c.data
      ⟨hsize, by omega⟩).post ?_
    · rintro i data' - - ⟨hsize', -⟩
      refine (holds_transferByte direction _ data' _ (le_register i)).post ?_
      intro data'' h
      exact ⟨h.1.trans hsize', fun _ => by omega⟩
    · rintro data' ⟨-, h⟩ _
      have := h (by omega)
      omega
  · simp only [Prog.holds_pure]
    omega

theorem holds_ecTransfer (direction : Direction) (address : UInt16) (data : Buf) (off : Nat)
    (size : UInt16) :
    Prog.Holds (· = .fault) (fun _ => True) (moves direction · = true)
      (fun _ => 0 < size.toNat → off + size.toNat ≤ data.size)
      (ecTransfer direction address data off size) := by
  apply (holds_reach direction address data off size).post
  intro _ h hpos
  unfold reach at h
  omega

theorem carries (ec : Ec σ) : Carries ec (emi ec) ecTransfer link where
  stall _ _ := rfl
  status d := ⟨_, rfl, by simp only [link, Bus.setEc_window]; rfl⟩
  result d := ⟨_, rfl, by simp only [link, Bus.setEc_window]; rfl⟩
  command v d := ⟨_, rfl, by simp only [link, Bus.setEc_window]; rfl⟩
  write data n d hn hfit := by
    have hreach : reach 0 n = n := by simp [reach, pad]
    apply (ends_ecTransfer ec .write 0 0 n data d (by omega) (by omega)).mono
    intro _ d' h
    rw [hreach] at h
    have hbus : d'.toBus = d.toBus.put 0 (data.bytes.drop 0) n := congrArg Prod.snd h
    simp only [link, hbus, Bus.put_window, Mem.drop_zero]
    rfl
  read a data off n d ha hn hfit := by
    have hreach : reach a n = n := by simp [reach, pad, ha]
    refine (ends_ecTransfer ec .read a off n data d (by omega) (by omega)).mono
      fun data' d' h => ?_
    rw [hreach] at h
    have hbus : d'.toBus = d.toBus.fetch a n := congrArg Prod.snd h
    have hdata : data' = ⟨data.bytes.copy off (d.mem.drop a) n, data.size⟩ := congrArg Prod.fst h
    refine ⟨?_, by simp only [link, hbus]; rfl⟩
    rw [hdata, Mem.copy_congr fun i hi => ?_]
    rw [Mem.drop_apply, Mem.drop_apply, Window.mem_lt _ (by omega)]
    simp only [link, Bus.window, Nat.zero_add]
  readPast a data off n d hpos hn hpast := by
    have hsize : (UInt16.ofNat n).toNat = n := by rw [UInt16.toNat_ofNat', Nat.mod_eq_of_lt hn]
    have hreads := Prog.exec_invariant (I := fun d' => (link d).reads <+: (link d').reads)
      (fun op d₁ x d₂ hop h => h.trans (emi_reads ec hop)) (ecTransfer .read a data off (UInt16.ofNat n))
      d (List.prefix_refl _)
    refine ⟨_, Prod.ext (Prog.exec_faults (emi_answers ec) (P := (moves .read · = true)) ?_ d) rfl,
      hreads⟩
    apply (holds_ecTransfer .read a data off _).post
    intro _ h
    have := h (by omega)
    omega

end Mec

namespace Azalea

/-- What the exchange sees of the port space. -/
def link (b : Bus σ) : Link σ :=
  ⟨b.ec, b.window ecLpcAddrHostPacket, b.reads.map (· - ecLpcAddrHostPacket)⟩

theorem npcx_answers (ec : Ec σ) (op : IoOp) (b : Bus σ) : ∃ y, npcx ec op b = .ok y := by
  cases op with
  | ioRead8 port =>
    simp only [npcx]
    split_ifs <;> exact ⟨_, rfl⟩
  | ioWrite8 port v =>
    simp only [npcx]
    split_ifs <;> exact ⟨_, rfl⟩
  | _ => exact ⟨_, rfl⟩

theorem npcx_reads (ec : Ec σ) {op : IoOp} {b b' : Bus σ} {x : op.Ans}
    (h : npcx ec op b = .ok (x, b')) : (link b).reads <+: (link b').reads := by
  cases op with
  | stall n => cases h; exact List.prefix_refl _
  | ioRead8 port =>
    simp only [npcx] at h
    split_ifs at h <;> cases h
    · exact List.prefix_refl _
    · exact List.prefix_refl _
    · exact (List.prefix_append _ _).map _
  | ioRead16 port => cases h; exact (List.prefix_append _ _).map _
  | ioWrite8 port v =>
    simp only [npcx] at h
    split_ifs at h <;> cases h <;> exact List.prefix_refl _
  | ioWrite16 port v => cases h; exact List.prefix_refl _

theorem holds_ecTransfer (direction : Direction) (address : UInt16) (data : Buf) (off : Nat)
    (size : UInt16) :
    Prog.Holds (· = .fault) (fun _ => True) (moves direction · = true)
      (fun _ => 0 < size.toNat → off + size.toNat ≤ data.size) (ecTransfer direction address data off size) := by
  unfold ecTransfer
  refine (Prog.Holds.forRange (I := fun i data' => data'.size = data.size ∧
    (0 < i → off + i ≤ data.size)) 0 size.toNat ?_ data ⟨rfl, by omega⟩).post ?_
  · rintro i data' - - ⟨hsize, -⟩
    refine (holds_transferByte direction _ data' _ ?_).post ?_
    · exact Nat.le_trans (le_portOf address) (Nat.le_add_right _ i)
    · intro data'' h
      exact ⟨h.1.trans hsize, fun _ => by omega⟩
  · rintro data' ⟨-, h⟩ _
    have := h (by omega)
    omega

theorem carries (ec : Ec σ) : Carries ec (npcx ec) ecTransfer link where
  stall _ _ := rfl
  status b := ⟨_, rfl, by simp only [link, Bus.setEc_window]; rfl⟩
  result b := ⟨_, rfl, by simp only [link, Bus.setEc_window]; rfl⟩
  command v b := ⟨_, rfl, by simp only [link, Bus.setEc_window]; rfl⟩
  write data n b hn hfit := by
    apply (ends_ecTransfer ec .write 0 0 n data b (by omega) (by omega)).mono
    intro _ b' h
    have hbus : b' = b.put ecLpcAddrHostPacket (data.bytes.drop 0) n := congrArg Prod.snd h
    simp only [link, hbus, Bus.put_window, Mem.drop_zero]
    rfl
  read a data off n b ha hn hfit := by
    have hport : a < 256 → portOf (UInt16.ofNat a) = 0x800 + a := portOf_packet a
    refine (ends_ecTransfer ec .read (UInt16.ofNat a) off n data b (by omega) hfit).mono
      fun data' b' h => ?_
    have hbus : b' = b.fetch (portOf (UInt16.ofNat a)) n := congrArg Prod.snd h
    have hdata : data' = ⟨data.bytes.copy off (b.mem.drop (portOf (UInt16.ofNat a))) n, data.size⟩ :=
      congrArg Prod.fst h
    rcases Nat.eq_zero_or_pos n with rfl | hpos
    · rw [hdata, hbus, Mem.copy_zero, Mem.copy_zero]
      exact ⟨rfl, by simp [link, Bus.fetch, Link.fetch]⟩
    rw [hport (by omega)] at hbus hdata
    refine ⟨?_, ?_⟩
    · rw [hdata, Mem.copy_congr fun i hi => ?_]
      rw [Mem.drop_apply, Mem.drop_apply, Window.mem_lt _ (by omega)]
      simp only [link, Bus.window, ecLpcAddrHostPacket, Nat.add_assoc]
    · have hmap : (List.range' (0x800 + a) n).map (· - ecLpcAddrHostPacket) = List.range' a n := by
        rw [List.range'_eq_map_range, List.range'_eq_map_range, List.map_map]
        apply List.map_congr_left
        intro i _
        simp only [Function.comp_apply, ecLpcAddrHostPacket]
        omega
      rw [hbus]
      simp only [link, Bus.fetch, List.map_append, hmap]
      rfl
  readPast a data off n b hpos hn hpast := by
    have hsize : (UInt16.ofNat n).toNat = n := by rw [UInt16.toNat_ofNat', Nat.mod_eq_of_lt hn]
    have hreads := Prog.exec_invariant (I := fun b' => (link b).reads <+: (link b').reads)
      (fun op b₁ x b₂ hop h => h.trans (npcx_reads ec hop)) (ecTransfer .read a data off (UInt16.ofNat n))
      b (List.prefix_refl _)
    refine ⟨_, Prod.ext (Prog.exec_faults (npcx_answers ec) (P := (moves .read · = true)) ?_ b) rfl,
      hreads⟩
    apply (holds_ecTransfer .read a data off _).post
    intro _ h
    have := h (by omega)
    omega

end Azalea

end FrameworkHacks.Transport
