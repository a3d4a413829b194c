import FrameworkHacks.Discovery.Images
import FrameworkHacks.Transport.Firmware

/-!
# Finding the EC

Each hardware library looks for the EC's identification where its own hardware has the memory map. On the
Microchip hardware the other library's ports are not decoded. On the NPCX hardware the Microchip library writes
two bytes into the packet window and takes the two after them for the identification: they are the version and
the reserved byte of a request, or the length of a response, so no packet looks like an EC there.

So on either hardware, in any order of images loaded and unloaded and of clients using the EC, where no image is
linked with the simulator, a client that locates the protocol is given the library for this hardware, and is
serviced by it; without an EC nothing is located (`discovery`).
-/

namespace FrameworkHacks.Discovery

open Effects Transport

open ECTool (efiSuccess)

variable {σ D B : Type}

/-! ### Looking -/

/-- The identification in the memory map: `'E'` and `'C'`. -/
def ShowsId (map : Mem) : Prop := map 0x20 = 0x45 ∧ map 0x21 = 0x43

theorem mec_ecTransfer_id (data : Buf) : Mec.ecTransfer .read 0x120 data 0 2 = (do
    ioWrite16 Mec.mecLpcAddressRegister0 0x120
    Prog.forRange (fun i data => transferByte .read (Mec.mecLpcDataRegister0 + i) data (0 + (0 + i))) 0 2 data) := by
  have haligned : ¬((0x120 : UInt16) % 4 > 0) := by decide
  have hshort : ¬(((2 : UInt16).toNat : Int) - (0 : Nat) ≥ 4) := by decide
  have hrest : ((2 : UInt16).toNat : Int) - (0 : Nat) > 0 := by decide
  have haddress : ((0x120 : UInt16) &&& 0xFFFC) ||| Mec.mecEcByteAccess = 0x120 := by decide
  have hhead : Mec.transferHead .read 0 ⟨0, 0x120, data⟩ = pure ⟨0, 0x120, data⟩ := if_neg haligned
  have hbody : Mec.transferBody .read 0 2 ⟨0, 0x120, data⟩ = pure ⟨0, 0x120, data⟩ := if_neg hshort
  rw [Mec.ecTransfer, hhead, pure_bind, hbody, pure_bind]
  unfold Mec.transferTail
  rw [if_pos hrest, haddress]
  rfl

/-- The Microchip library on the NPCX hardware: it takes two bytes of the window for the identification. -/
theorem exec_detect_npcx (ec : Ec σ) (id : Mem) (b : Bus σ) :
    (detect Mec.ecReadMemoryMecLpc id).exec (npcx ec) b =
      (.ok (decide ((2 : Int) = 2 ∧ b.mem 0x804 = 0x45 ∧ b.mem 0x805 = 0x43)),
        ((b.put 0x802 (Mem.ofList (Mem.le16Bytes 0x120)) 2).fetch 0x804 1).fetch 0x805 1) := by
  have hguard : ¬(ecMemmapId + 2).toNat > ecMemmapSize := by decide
  have hlen : (2 : UInt64) > 0 := by decide
  have haddress : UInt16.ofInt (0x100 + toInt ecMemmapId.toNat) = 0x120 := by decide
  have hsize : (2 : UInt64).toUInt16 = 2 := rfl
  unfold detect Mec.ecReadMemoryMecLpc ecReadMemoryWith
  rw [if_neg hguard, if_pos hlen, addInt_of_le (by decide) (by decide), pure_bind, haddress, hsize, mec_ecTransfer_id]
  rfl

/-- The Azalea library on the Microchip hardware reads ports that are not decoded. -/
theorem exec_detect_emi (ec : Ec σ) (id : Mem) (d : Emi σ) :
    (detect Azalea.ecReadMemory id).exec (emi ec) d = (.ok false, d) := rfl

section Serves

variable {ec : Ec σ} {h : Handler Io D} {xfer : EcTransfer} {link : D → Link σ} {map : D → Mem}

/-- What a look for the EC leaves as it was. -/
structure Undisturbed (link : D → Link σ) (map : D → Mem) (d d' : D) : Prop where
  ec : (link d').ec = (link d).ec
  map : ∀ i < 0x100, map d' i = map d i
  window : (link d').window 5 = (link d).window 5

theorem ends_detect (hs : Serves ec h xfer link map) (id : Mem) (d : D) :
    Prog.Ends h (detect (ecReadMemoryWith xfer) id) d fun found d' =>
      (found = true ↔ ShowsId (map d)) ∧ Undisturbed link map d d' := by
  have hplain : Plain (.readMemory ecMemmapId ⟨id, 2⟩ 2) := ⟨by decide, by decide, Nat.le_refl 2, by decide⟩
  have hread := hs.readMemory ecMemmapId ⟨id, 2⟩ 2 hplain
    (m := ⟨(link d).ec, (link d).window, map d⟩) (d := d) ⟨rfl, rfl, fun _ _ => rfl⟩
  refine hread.bind ?_
  rintro _ d' ⟨rfl, hshow⟩
  -- the two bytes of the buffer are those of the map
  refine .pure ⟨?_, hshow.ec, hshow.map, by rw [hshow.window]⟩
  rw [decide_eq_true_iff]
  exact ⟨fun hfound => hfound.2, fun hid => ⟨rfl, hid⟩⟩

end Serves

/-- The libraries for hardware. -/
def IsHardware (library : Library) : Prop := library ≠ .null

theorem emi_look (ec : Ec σ) (id : Mem) {library : Library} (hlinked : IsHardware library) (d : Emi σ) :
    Prog.Ends (emi ec) (look id library) d fun found d' =>
      (found = true ↔ library = .microchip ∧ ShowsId (Mec.memmap d)) ∧ Undisturbed Mec.link Mec.memmap d d' := by
  cases library with
  | microchip =>
    exact (ends_detect (Mec.serves ec) id d).mono fun found _ hend => ⟨by simp [hend.1], hend.2⟩
  | azalea => exact ⟨false, d, exec_detect_emi ec id d, by simp, rfl, fun _ _ => rfl, rfl⟩
  | null => exact absurd rfl hlinked

theorem npcx_look (ec : Ec σ) (id : Mem) {library : Library} (hlinked : IsHardware library) (b : Bus σ)
    (hwindow : (Azalea.link b).window 5 ≠ 0x43) :
    Prog.Ends (npcx ec) (look id library) b fun found b' =>
      (found = true ↔ library = .azalea ∧ ShowsId (Azalea.memmap b)) ∧
        Undisturbed Azalea.link Azalea.memmap b b' := by
  cases library with
  | microchip =>
    refine ⟨_, _, exec_detect_npcx ec id b, ?_, rfl, fun i _ => ?_, rfl⟩
    · have hmem : b.mem 0x805 ≠ 0x43 := hwindow
      simp [hmem]
    · exact congrFun (put_drop b 0x802 2 0xE00 _ (by decide)) i
  | azalea =>
    exact (ends_detect (Azalea.serves ec) id b).mono fun found _ hend => ⟨by simp [hend.1], hend.2⟩
  | null => exact absurd rfl hlinked

/-! ### The window -/

section Window

variable (ec : Ec σ) (Q : Window → Prop)

theorem exchange_window (hstatus : ∀ s, Q s.2 → Q (ec.status s).2.2) (hresult : ∀ s, Q s.2 → Q (ec.result s).2.2)
    (hcommand : ∀ v s, Q s.2 → Q (ec.command v s).2)
    (hwrite : ∀ (w : Window) command version payload n, Q (w.write (requestPacket command version payload n) (n + 8)))
    (command version : UInt64) (payload : Mem) (outsize : UInt64) (indata : Mem) (insize : UInt64) {l : Link σ}
    (hl : Q l.window) : Q (exchange ec command version payload outsize indata insize l).2.window := by
  have hawait (n : Nat) {l : Link σ} (hl : Q l.window) : Q (l.await ec n).2.window := by
    induction n generalizing l with
    | zero => exact hl
    | succ n ih =>
      rw [Link.await]
      split
      · exact hstatus _ hl
      · exact ih (hstatus _ hl)
  have hhandshake : Q (handshake ec command version payload outsize.toNat l).2.window := by
    have h₁ := hawait readyPolls hl
    have hrung : Q (((l.await ec readyPolls).2.write (requestPacket command version payload outsize.toNat)
        (outsize.toNat + 8)).command ec ecCommandProtocol3).window := hcommand _ _ (hwrite _ _ _ _ _)
    have h₂ := hawait readyPolls hrung
    unfold handshake
    simp only []
    split
    · exact h₁
    split
    · exact h₂
    split
    · exact hresult _ h₂
    · exact hresult _ h₂
  rw [exchange]
  split
  · exact hl
  split
  · exact hl
  simp only []
  split
  · exact hhandshake
  · rw [responseReads]
    split <;> exact hhandshake

end Window

theorem requestPacket_reserved (w : Window) (command version : UInt64) (payload : Mem) (n : Nat) :
    (w.write (requestPacket command version payload n) (n + 8)) 5 ≠ 0x43 := by
  have hin : (5 : Fin 256).val < n + 8 := by
    show 5 < n + 8
    omega
  rw [Window.write, if_pos hin]
  exact (by decide : (0 : UInt8) ≠ 0x43)

theorem packet_dataLen (a : Response) : a.packet 5 ≠ 0x43 := by
  intro h
  have hlen := a.dataLen
  have hfits := a.fits
  have hhigh : (a.packet.mem (4 + 1)).toNat = 67 := congrArg UInt8.toNat h
  rw [Mem.le16, hhigh] at hlen
  rw [gEcMaxResponse_eq] at hfits
  omega

section Firmware

variable (serve : Firmware σ) (schedule : Nat → UInt8)

theorem finish_window (c : Controller σ) (w : Window) (hw : w 5 ≠ 0x43) : (c.finish serve w).2 5 ≠ 0x43 := by
  unfold Controller.finish
  split
  · exact hw
  · exact packet_dataLen _

theorem machine_genuine (op : CrosEcOp) (m : Machine (Controller σ)) (x : op.Ans) (m' : Machine (Controller σ))
    (hop : machine (firmwareEc serve schedule) op m = .ok (x, m')) (hm : m.window 5 ≠ 0x43) :
    m'.window 5 ≠ 0x43 ∧ m'.map = m.map := by
  cases op with
  | sendCommand command version outdata outsize indata insize =>
    have hwindow := exchange_window (firmwareEc serve schedule) (fun w => w 5 ≠ 0x43)
      (fun s hs => by
        simp only [firmwareEc]
        split
        · exact finish_window serve _ _ hs
        · exact hs)
      (fun s hs => hs)
      (fun v s hs => by
        simp only [firmwareEc]
        split
        · split <;> exact hs
        · exact hs)
      requestPacket_reserved command version outdata outsize indata insize (l := m.link) hm
    simp only [machine] at hop
    split at hop
    · cases hop
      exact ⟨hwindow, rfl⟩
    · cases hop
  | readMemory offset buffer length =>
    simp only [machine] at hop
    split at hop
    · cases hop
      exact ⟨hm, rfl⟩
    · cases hop

end Firmware

/-! ### Who finds the EC -/

/-- The libraries that everything in the package is linked with. -/
def linkedLibraries : List Library := [.microchip, .azalea]

theorem linkedLibraries_hardware : ∀ library ∈ linkedLibraries, IsHardware library := by
  unfold IsHardware
  decide

/-- The memory map shows an EC or not, and the window does not look like one to the Microchip library. -/
structure Genuine (shown : Prop) (link : D → Link σ) (map : D → Mem) (d : D) : Prop where
  map : ShowsId (map d) ↔ shown
  window : (link d).window 5 ≠ 0x43

section Detects

variable {shown : Prop} {link : D → Link σ} {map : D → Mem} {d d' : D}

theorem showsId_congr {m m' : Mem} (h : ∀ i < 0x100, m' i = m i) : ShowsId m' ↔ ShowsId m := by
  rw [ShowsId, ShowsId, h 0x20 (by decide), h 0x21 (by decide)]

theorem Genuine.undisturbed (hd : Genuine shown link map d) (hsame : Undisturbed link map d d') :
    Genuine shown link map d' :=
  ⟨(showsId_congr hsame.map).trans hd.map, by rw [hsame.window]; exact hd.window⟩

theorem emi_detects (ec : Ec σ) :
    Detects (emi ec) IsHardware (Genuine shown Mec.link Mec.memmap) fun library found =>
      found = true ↔ library = .microchip ∧ shown :=
  fun id _ d hlinked hd => .of_ends ((emi_look ec id hlinked d).mono fun _ _ hend =>
    ⟨hd.undisturbed hend.2, hend.1.trans (and_congr_right fun _ => hd.map)⟩)

theorem npcx_detects (ec : Ec σ) :
    Detects (npcx ec) IsHardware (Genuine shown Azalea.link Azalea.memmap) fun library found =>
      found = true ↔ library = .azalea ∧ shown :=
  fun id _ b hlinked hb => .of_ends ((npcx_look ec id hlinked b hb.window).mono fun _ _ hend =>
    ⟨hb.undisturbed hend.2, hend.1.trans (and_congr_right fun _ => hb.map)⟩)

end Detects

/-! ### Clients -/

/-- The protocol of a library; the simulated EC of the null library is not on the ports. -/
def protocolOf (u r : Mem) : Library → Option (Impl CrosEc Io)
  | .microchip => some (Mec.mCrosECProtocol u r)
  | .azalea => some (Azalea.mCrosECProtocol u r)
  | .null => none

/-- A client that has located the protocol makes calls. -/
def Uses (h : Handler Io D) (interfaces : B → List (Handle × Interface)) (db : B) (d d' : D) : Prop :=
  ∃ e ∈ interfaces db, ∃ u r impl, protocolOf u r e.2.library = some impl ∧
    ∃ (α : Type) (p : Prog CrosEc α) (a : α),
      Prog.Holds (fun _ => True) (fun _ => True) (fun e => WellFormed e.op) (fun _ => True) p ∧
      (p.interpret impl).exec h d = (.ok a, d')

section Clients

variable {serve : Firmware σ} {schedule : Nat → UInt8} {h : Handler Io D} {xfer : EcTransfer}
  {link : D → Link (Controller σ)} {map : D → Mem} {boot : Handler Boot B}
  {interfaces : B → List (Handle × Interface)} {right : Library} {shown : Prop} {d : D}

theorem post_client (hs : Serves (firmwareEc serve schedule) h xfer link map) (u r : Mem) {α : Type}
    {p : Prog CrosEc α} (hd : Genuine shown link map d)
    (hp : Prog.Holds (fun _ => True) (fun _ => True) (fun e => WellFormed e.op) (fun _ => True) p) :
    Prog.Post h (p.interpret (protocolWith xfer u r)) d fun _ d' => Genuine shown link map d' := by
  intro a d' hexec
  have hshow : Shows link map (Machine.mk (link d).ec (link d).window (map d)) d := ⟨rfl, rfl, fun _ _ => rfl⟩
  have hmatch := (hs.realizes u r).exec crosEc_ans (hp.mono (fun _ hop => hop.plain) fun _ hx => hx) hshow
  have hkept := Prog.exec_invariant (I := fun m => m.window 5 ≠ 0x43 ∧ m.map = map d)
    (fun op m x m' hop hm => by
      have hm' := machine_genuine serve schedule op m x m' hop hm.1
      exact ⟨hm'.1, hm'.2.trans hm.2⟩)
    p (Machine.mk (link d).ec (link d).window (map d)) ⟨hd.window, rfl⟩
  rcases hrun : p.exec (machine (firmwareEc serve schedule)) ⟨(link d).ec, (link d).window, map d⟩ with ⟨_ | b, m'⟩
  · rw [hrun] at hmatch
    obtain ⟨t', herror⟩ := hmatch
    rw [hexec] at herror
    cases herror
  · rw [hrun] at hmatch hkept
    have hend := ((Prog.ends_iff hexec).1 hmatch).2
    refine ⟨(showsId_congr fun i hi => ?_).trans hd.map, by rw [hend.window]; exact hkept.1⟩
    rw [hend.map i hi, hkept.2]

/-- What locates the protocol is given the right library and is serviced by it; it is located if there is an EC, and
otherwise never. -/
structure Discovered (shown : Prop) (serve : Firmware σ) (schedule : Nat → UInt8) (h : Handler Io D)
    (boot : Handler Boot B) (interfaces : B → List (Handle × Interface)) (link : D → Link (Controller σ))
    (right : Library) (w : World D B) : Prop where
  located : ∀ e ∈ interfaces w.db, shown ∧ e.2.library = right ∧ ∃ image ∈ w.images, image.id = e.2.image
  serviced : ∀ e ∈ interfaces w.db, ∀ u r impl, protocolOf u r e.2.library = some impl →
    ∀ (α : Type) (p : Prog CrosEc α),
      Prog.Holds (fun _ => False) (fun _ => True) (fun e => WellFormed e.op) (fun _ => True) p →
      Serviced serve schedule h link impl p w.device
  /-- Whatever is loaded next finds the protocol installed, or installs it. -/
  loads : ∀ id image statics d db, shown →
    (processLibraryConstructorList id image linkedLibraries).exec (h.sum boot) (w.device, w.db) =
      (.ok statics, d, db) →
    (∀ s ∈ statics, s.status = efiSuccess) → ∃ e, interfaces db = [e] ∧ e.2.library = right

/-- Nothing is loaded yet. -/
structure PoweredOn (shown : Prop) (interfaces : B → List (Handle × Interface)) (link : D → Link (Controller σ))
    (map : D → Mem) (w : World D B) : Prop where
  images : w.images = []
  empty : interfaces w.db = []
  genuine : Genuine shown link map w.device

theorem discovered (hs : Serves (firmwareEc serve schedule) h xfer link map) (hdb : HandleDatabase boot interfaces)
    (hright : right ∈ linkedLibraries) (hprotocol : ∀ u r, protocolOf u r right = some (protocolWith xfer u r))
    (hdetects : Detects h IsHardware (Genuine shown link map) fun library found =>
      found = true ↔ library = right ∧ shown)
    {w w' : World D B} (hw : PoweredOn shown interfaces link map w)
    (hrun : Relation.ReflTransGen (Step h boot IsHardware (Uses h interfaces)) w w') :
    Discovered shown serve schedule h boot interfaces link right w' := by
  have hstart : Consistent interfaces (Genuine shown link map)
      (fun library found => found = true ↔ library = right ∧ shown) w :=
    ⟨hw.genuine, by rw [hw.empty, hw.images]; rfl, by simp [hw.empty], by simp [hw.images]⟩
  have hlibrary {w : World D B} (hw : Consistent interfaces (Genuine shown link map)
      (fun library found => found = true ↔ library = right ∧ shown) w) {e : Handle × Interface}
      (he : e ∈ interfaces w.db) : shown ∧ e.2.library = right ∧ ∃ image ∈ w.images, image.id = e.2.image := by
    obtain ⟨image, himage, s, hs, hinterface, hhandle⟩ := hw.holder he
    obtain ⟨hlib, hshown⟩ := (hw.found image himage s hs (by simp [hhandle])).1 rfl
    exact ⟨hshown, by rw [hinterface]; exact hlib, image, himage, by rw [hinterface]⟩
  have hfinal := consistent_run hdb hdetects (fun w d hw hclient => by
    obtain ⟨e, he, u, r, impl, himpl, α, p, a, hp, hexec⟩ := hclient
    rw [(hlibrary hw he).2.1, hprotocol] at himpl
    cases himpl
    exact post_client hs u r hw.device hp a d hexec) hstart hrun
  refine ⟨fun e he => hlibrary hfinal he, fun e he u r impl himpl α p hp => ?_, ?_⟩
  · rw [(hlibrary hfinal he).2.1, hprotocol] at himpl
    cases himpl
    exact hs.serviced serve schedule u r hp w'.device
  · intro id image statics d db hshown hexec hall
    obtain ⟨-, hloaded⟩ :=
      post_constructors hdb hdetects id image linkedLibraries_hardware hfinal.device hfinal.single _ _ hexec
    have hpresent := hloaded.present ⟨right, hright, by simp [hshown]⟩ hall
    obtain ⟨e, he⟩ : ∃ e, interfaces db = [e] := by
      refine List.length_eq_one_iff.1 (Nat.le_antisymm hloaded.single ?_)
      exact List.length_pos_iff.2 hpresent
    refine ⟨e, he, ?_⟩
    have hmem : e ∈ Image.installed ⟨image, statics⟩ ++ interfaces w'.db := by
      rw [← hloaded.entries, he]
      exact List.mem_singleton_self e
    rcases List.mem_append.1 hmem with hnew | hold
    · obtain ⟨s, hs', hinterface, hhandle⟩ := Image.mem_installed hnew
      rw [hinterface]
      exact ((hloaded.found s hs' (by simp [hhandle])).1 rfl).1
    · exact (hlibrary hfinal hold).2.1

end Clients

/-- **On either hardware, a client that locates the protocol is given the library for this hardware and is serviced
by it**, whatever was loaded, unloaded and done before, if all images are linked with hardware libraries only
(`IsHardware`), as this package links them. -/
theorem discovery (shown : Prop) (serve : Firmware σ) (schedule : Nat → UInt8) {boot : Handler Boot B}
    {interfaces : B → List (Handle × Interface)} (hdb : HandleDatabase boot interfaces) :
    (∀ w w' : World (Emi (Controller σ)) B, PoweredOn shown interfaces Mec.link Mec.memmap w →
      Relation.ReflTransGen (Step (emi (firmwareEc serve schedule)) boot IsHardware
        (Uses (emi (firmwareEc serve schedule)) interfaces)) w w' →
      Discovered shown serve schedule (emi (firmwareEc serve schedule)) boot interfaces Mec.link .microchip w') ∧
    ∀ w w' : World (Bus (Controller σ)) B, PoweredOn shown interfaces Azalea.link Azalea.memmap w →
      Relation.ReflTransGen (Step (npcx (firmwareEc serve schedule)) boot IsHardware
        (Uses (npcx (firmwareEc serve schedule)) interfaces)) w w' →
      Discovered shown serve schedule (npcx (firmwareEc serve schedule)) boot interfaces Azalea.link .azalea w' :=
  ⟨fun _ _ hw hrun => discovered (Mec.serves _) hdb (by decide) (fun _ _ => rfl) (emi_detects _) hw hrun,
    fun _ _ hw hrun => discovered (Azalea.serves _) hdb (by decide) (fun _ _ => rfl) (npcx_detects _) hw hrun⟩

/-- The NPCX hardware at power-on, with an EC that counts its requests. -/
def poweredOn : World (Bus (Controller Nat)) (List (Handle × Interface)) :=
  ⟨⟨⟨0, 0, 0, none⟩, (Mem.ofList []).copy 0xE20 (Mem.ofList [0x45, 0x43]) 2, []⟩, [], []⟩

/-- An image is loaded there: its Azalea library is the one that provides the protocol. -/
theorem discovery_npcx :
    let serve : Firmware Nat := fun n _ => (Response.of 0 [UInt8.ofNat n] (show 1 ≤ 248 by decide), n + 1)
    ∃ w : World (Bus (Controller Nat)) (List (Handle × Interface)), w.db = [(1, ⟨7, .azalea⟩)] ∧
      Discovered True serve (fun _ => 0) (npcx (firmwareEc serve fun _ => 0)) listBoot id Azalea.link .azalea w := by
  intro serve
  have hfirst : (constructor (fun _ => 0) ⟨7, .microchip⟩ none).exec
      ((npcx (firmwareEc serve fun _ => 0)).sum listBoot) (poweredOn.device, poweredOn.db) =
        (.ok (efiSuccess, none), ((poweredOn.device.put 0x802 (Mem.ofList (Mem.le16Bytes 0x120)) 2).fetch 0x804 1).fetch
          0x805 1, []) := by
    simp only [constructor, microchipCrosECLibConstructor, hardwareConstructor]
    rw [Prog.exec_bind, Prog.exec_inl, exec_detect_npcx]
    rfl
  have hload : (processLibraryConstructorList (fun _ => 0) 7 linkedLibraries).exec
      ((npcx (firmwareEc serve fun _ => 0)).sum listBoot) (poweredOn.device, poweredOn.db) =
        (.ok [⟨.microchip, efiSuccess, none⟩, ⟨.azalea, efiSuccess, some 1⟩],
          ((((poweredOn.device.put 0x802 (Mem.ofList (Mem.le16Bytes 0x120)) 2).fetch 0x804 1).fetch 0x805 1).fetch
            0xE20 1).fetch 0xE21 1, [(1, ⟨7, .azalea⟩)]) := by
    rw [linkedLibraries, processLibraryConstructorList, Prog.exec_bind_ok hfirst]
    rfl
  have hshows : ShowsId (Azalea.memmap poweredOn.device) := ⟨rfl, rfl⟩
  have hw : PoweredOn True id Azalea.link Azalea.memmap poweredOn := ⟨rfl, rfl, by simp [hshows], by decide⟩
  exact ⟨_, rfl, (discovery True serve (fun _ => 0) listBoot_database).2 poweredOn _ hw
    (.single (.load linkedLibraries_hardware (by simp [poweredOn]) hload))⟩

end FrameworkHacks.Discovery
