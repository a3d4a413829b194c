import Mathlib.Logic.Relation
import FrameworkHacks.Transport.CrosEC
import FrameworkHacks.ECTool.Services
import FrameworkHacks.Null.ECNull

/-!
# Images and the handle database

Every image carries the EC libraries it was linked with. Their constructors run when it is loaded: each one
looks for an EC and, where it finds one, installs its protocol under the device path that all of them share.
Their destructors run when it is unloaded.

The boot services are any that keep a list of the installed protocols in the documented way
(`HandleDatabase`). Whatever is loaded and unloaded in whatever order, and whatever the ports answer, at most
one EC protocol is installed at a time, and its code is that of an image that is still loaded
(`handles_loaded`).
-/

namespace FrameworkHacks.Discovery

open Effects Transport

open ECTool (EfiStatus efiSuccess efiError)

def efiAlreadyStarted : EfiStatus := 0x8000000000000014

/-! ### Libraries -/

inductive Library
  | microchip
  | azalea
  | null
  deriving DecidableEq, Repr

/-- `EFI_HANDLE`, where it is not NULL. -/
abbrev Handle := Nat

/-- `&mCrosECProtocol`, which points into the image. -/
structure Interface where
  image : Nat
  library : Library
  deriving DecidableEq, Repr

/-- The boot services and pool functions of the constructors and destructors. The two `...ProtocolInterfaces`
also name `mVendorDevicePath`, whose contents are the same in all libraries. -/
inductive BootOp
  | installMultipleProtocolInterfaces (handle : Option Handle) (interface : Interface)
  | uninstallMultipleProtocolInterfaces (handle : Handle) (interface : Interface)
  | allocatePool (size : Nat)
  | freePool

/-- An installation returns its status and the handle; an allocation whether there is a block. -/
@[reducible] def BootOp.Ans : BootOp → Type
  | .installMultipleProtocolInterfaces .. => EfiStatus × Option Handle
  | .uninstallMultipleProtocolInterfaces .. => EfiStatus
  | .allocatePool _ => Bool
  | .freePool => Unit

@[reducible] def Boot : Signature := ⟨BootOp, BootOp.Ans⟩

@[reducible] def Firm : Signature := Io.sum Boot

def ecMemmapId : UInt64 := 0x20

/-- `2 == ECReadMemory(EC_MEMMAP_ID, Id, 2) && Id[0] == 'E' && Id[1] == 'C'`; `id` is what `Id` holds before. -/
def detect (readMemory : UInt64 → Buf → UInt64 → Prog Io (Int × Buf)) (id : Mem) : Prog Io Bool := do
  let (read, id) ← readMemory ecMemmapId ⟨id, 2⟩ 2
  return read = 2 ∧ id.bytes 0 = 0x45 ∧ id.bytes 1 = 0x43

def installProtocol (interface : Interface) (mProtocolHandle : Option Handle) :
    Prog Boot (EfiStatus × Option Handle) := do
  let (status, mProtocolHandle) ← Prog.perform (E := Boot)
    (.installMultipleProtocolInterfaces mProtocolHandle interface)
  -- an EC has already been detected
  return (if status = efiAlreadyStarted then efiSuccess else status, mProtocolHandle)

def hardwareConstructor (readMemory : UInt64 → Buf → UInt64 → Prog Io (Int × Buf)) (id : Mem)
    (interface : Interface) (mProtocolHandle : Option Handle) : Prog Firm (EfiStatus × Option Handle) := do
  if ← (detect readMemory id).inl then
    (installProtocol interface mProtocolHandle).inr
  else
    return (efiSuccess, mProtocolHandle)

def microchipCrosECLibConstructor := hardwareConstructor Mec.ecReadMemoryMecLpc

def azaleaCrosECLibConstructor := hardwareConstructor Azalea.ecReadMemory

/-- The new flash is filled without a look at whether there is one. -/
def crosECNullLibConstructor (interface : Interface) (mProtocolHandle : Option Handle) :
    Prog Boot (EfiStatus × Option Handle) := do
  if ← Prog.perform (E := Boot) (.allocatePool Null.gFlashLen) then
    installProtocol interface mProtocolHandle
  else
    .fault

/-- `MicrochipCrosECLibDestructor` and `AzaleaCrosECLibDestructor` -/
def uninstallProtocol (interface : Interface) (mProtocolHandle : Option Handle) : Prog Boot EfiStatus :=
  match mProtocolHandle with
  | none => return efiSuccess
  | some handle => Prog.perform (E := Boot) (.uninstallMultipleProtocolInterfaces handle interface)

def crosECNullLibDestructor (interface : Interface) (mProtocolHandle : Option Handle) : Prog Boot EfiStatus := do
  Prog.perform (E := Boot) .freePool
  uninstallProtocol interface mProtocolHandle

/-! ### Images -/

/-- A library in an image: what its constructor returned, and its `mProtocolHandle`. -/
structure Static where
  library : Library
  status : EfiStatus
  mProtocolHandle : Option Handle

def constructor (id : Mem) (interface : Interface) (mProtocolHandle : Option Handle) :
    Prog Firm (EfiStatus × Option Handle) :=
  match interface.library with
  | .microchip => microchipCrosECLibConstructor id interface mProtocolHandle
  | .azalea => azaleaCrosECLibConstructor id interface mProtocolHandle
  | .null => (crosECNullLibConstructor interface mProtocolHandle).inr

def destructor (interface : Interface) (mProtocolHandle : Option Handle) : Prog Boot EfiStatus :=
  match interface.library with
  | .null => crosECNullLibDestructor interface mProtocolHandle
  | _ => uninstallProtocol interface mProtocolHandle

/-- The entry point of an image runs the constructors in the order the libraries were linked in. -/
def processLibraryConstructorList (id : Mem) (image : Nat) : List Library → Prog Firm (List Static)
  | [] => return []
  | library :: libraries => do
    let (status, mProtocolHandle) ← constructor id ⟨image, library⟩ none
    return ⟨library, status, mProtocolHandle⟩ :: (← processLibraryConstructorList id image libraries)

/-- The destructors run in the opposite order. -/
def processLibraryDestructorList (image : Nat) : List Static → Prog Boot Unit
  | [] => return ()
  | s :: rest => do
    processLibraryDestructorList image rest
    let _ ← destructor ⟨image, s.library⟩ s.mProtocolHandle

structure Image where
  id : Nat
  statics : List Static

/-- What a library has installed. -/
def Static.installed (image : Nat) (s : Static) : List (Handle × Interface) :=
  s.mProtocolHandle.toList.map fun handle => (handle, ⟨image, s.library⟩)

def Image.installed (image : Image) : List (Handle × Interface) := image.statics.flatMap (Static.installed image.id)

/-! ### The handle database -/

/-- `interfaces` lists the EC protocols that are installed. A device path that is already present is refused, and
what is installed can be uninstalled. -/
structure HandleDatabase {B : Type} (boot : Handler Boot B) (interfaces : B → List (Handle × Interface)) :
    Prop where
  installTaken : ∀ handle interface db, interfaces db ≠ [] → ∃ db',
    boot (.installMultipleProtocolInterfaces handle interface) db = .ok ((efiAlreadyStarted, handle), db') ∧
      interfaces db' = interfaces db
  installFree : ∀ interface db, interfaces db = [] → ∃ status handle db',
    boot (.installMultipleProtocolInterfaces none interface) db = .ok ((status, handle), db') ∧
      (status = efiSuccess ∧ (∃ h, handle = some h ∧ interfaces db' = [(h, interface)]) ∨
        efiError status = true ∧ status ≠ efiAlreadyStarted ∧ handle = none ∧ interfaces db' = [])
  uninstall : ∀ handle interface db, (handle, interface) ∈ interfaces db → ∃ db',
    boot (.uninstallMultipleProtocolInterfaces handle interface) db = .ok (efiSuccess, db') ∧
      interfaces db' = (interfaces db).erase (handle, interface)
  pool : ∀ size db b db', boot (.allocatePool size) db = .ok (b, db') → interfaces db' = interfaces db
  free : ∀ db db', boot .freePool db = .ok ((), db') → interfaces db' = interfaces db

section Database

variable {D B : Type} {h : Handler Io D} {boot : Handler Boot B} {interfaces : B → List (Handle × Interface)}

/-- What became of an installation: `before` and `after` are the protocols installed before and after it. -/
structure Installs (interface : Interface) (status : EfiStatus) (mProtocolHandle : Option Handle)
    (before after : List (Handle × Interface)) : Prop where
  entries : after = (Static.mk interface.library status mProtocolHandle).installed interface.image ++ before
  single : after.length ≤ 1
  present : status = efiSuccess → after ≠ []

theorem post_installProtocol (hdb : HandleDatabase boot interfaces) (interface : Interface) (db : B)
    (hsingle : (interfaces db).length ≤ 1) :
    Prog.Post boot (installProtocol interface none) db fun r db' =>
      Installs interface r.1 r.2 (interfaces db) (interfaces db') := by
  refine Prog.Post.of_ends ?_
  unfold installProtocol
  by_cases hfree : interfaces db = []
  · obtain ⟨status, handle, db', hop, hcase⟩ := hdb.installFree interface db hfree
    refine Prog.Ends.perform_bind hop (.pure ?_)
    rcases hcase with ⟨rfl, handle, rfl, hafter⟩ | ⟨herror, hother, rfl, hafter⟩
    · simp only
      rw [if_neg (by decide), hafter, hfree]
      exact ⟨rfl, Nat.le_refl 1, fun _ => by simp⟩
    · simp only
      rw [if_neg hother, hafter, hfree]
      refine ⟨rfl, Nat.zero_le 1, fun hok => ?_⟩
      subst hok
      exact absurd herror (by decide)
  · obtain ⟨db', hop, hafter⟩ := hdb.installTaken none interface db hfree
    refine Prog.Ends.perform_bind hop (.pure ?_)
    simp only
    rw [if_pos trivial, hafter]
    exact ⟨rfl, hsingle, fun _ => hfree⟩

/-- What became of a constructor. -/
structure Constructs (found : Bool) (interface : Interface) (status : EfiStatus) (mProtocolHandle : Option Handle)
    (before after : List (Handle × Interface)) : Prop where
  entries : after = (Static.mk interface.library status mProtocolHandle).installed interface.image ++ before
  single : after.length ≤ 1
  silent : found = false → mProtocolHandle = none
  present : found = true → status = efiSuccess → after ≠ []

theorem post_hardwareConstructor (hdb : HandleDatabase boot interfaces)
    {readMemory : UInt64 → Buf → UInt64 → Prog Io (Int × Buf)} {id : Mem} (interface : Interface) {d : D} {db : B}
    (hsingle : (interfaces db).length ≤ 1) {J : Bool → D → Prop}
    (hdetect : Prog.Post h (detect readMemory id) d J) :
    Prog.Post (h.sum boot) (hardwareConstructor readMemory id interface none) (d, db) fun r s =>
      ∃ found, J found s.1 ∧ Constructs found interface r.1 r.2 (interfaces db) (interfaces s.2) := by
  refine Prog.Post.bind (Q := fun found s => J found s.1 ∧ s.2 = db)
    (.inl (hdetect.mono fun found d' hJ => ⟨hJ, rfl⟩)) ?_
  rintro found ⟨d', db⟩ ⟨hJ, rfl⟩
  cases found with
  | false => exact .ret ⟨false, hJ, rfl, hsingle, fun _ => rfl, nofun⟩
  | true =>
    refine Prog.Post.inr ((post_installProtocol hdb interface db hsingle).mono fun r db' hr => ?_)
    exact ⟨true, hJ, hr.entries, hr.single, nofun, fun _ => hr.present⟩

theorem post_nullConstructor (hdb : HandleDatabase boot interfaces) (interface : Interface) {db : B}
    (hsingle : (interfaces db).length ≤ 1) :
    Prog.Post boot (crosECNullLibConstructor interface none) db fun r db' =>
      Constructs true interface r.1 r.2 (interfaces db) (interfaces db') := by
  refine Prog.Post.bind (.perform fun b db' hop => hdb.pool _ db b db' hop) fun b db' hsame => ?_
  cases b with
  | false => exact .fault
  | true =>
    rw [← hsame]
    exact (post_installProtocol hdb interface db' (hsame ▸ hsingle)).mono fun r db'' hr =>
      ⟨hr.entries, hr.single, nofun, fun _ => hr.present⟩

/-- What a library looks for; the null library finds an EC without looking. -/
def look (id : Mem) : Library → Prog Io Bool
  | .microchip => detect Mec.ecReadMemoryMecLpc id
  | .azalea => detect Azalea.ecReadMemory id
  | .null => return true

/-- On a device in `I`, and leaving it there, the libraries in `L` find what `K` allows. -/
def Detects (h : Handler Io D) (L : Library → Prop) (I : D → Prop) (K : Library → Bool → Prop) : Prop :=
  ∀ id library d, L library → I d → Prog.Post h (look id library) d fun found d' => I d' ∧ K library found

variable {L : Library → Prop} {I : D → Prop} {K : Library → Bool → Prop}

theorem post_constructor (hdb : HandleDatabase boot interfaces) (hdetects : Detects h L I K) (id : Mem)
    (interface : Interface) (hlinked : L interface.library) {d : D} {db : B} (hd : I d)
    (hsingle : (interfaces db).length ≤ 1) :
    Prog.Post (h.sum boot) (constructor id interface none) (d, db) fun r s =>
      ∃ found, (I s.1 ∧ K interface.library found) ∧
        Constructs found interface r.1 r.2 (interfaces db) (interfaces s.2) := by
  obtain ⟨image, library⟩ := interface
  have hlook := hdetects id library d hlinked hd
  cases library with
  | microchip => exact post_hardwareConstructor hdb ⟨image, .microchip⟩ hsingle hlook
  | azalea => exact post_hardwareConstructor hdb ⟨image, .azalea⟩ hsingle hlook
  | null =>
    refine Prog.Post.inr ((post_nullConstructor hdb ⟨image, .null⟩ hsingle).mono fun r db' hr => ?_)
    exact ⟨true, hlook true d rfl, hr⟩

/-- What became of the constructors of an image. -/
structure Loaded (K : Library → Bool → Prop) (libraries : List Library) (image : Image)
    (before after : List (Handle × Interface)) : Prop where
  entries : after = image.installed ++ before
  single : after.length ≤ 1
  found : ∀ s ∈ image.statics, s.mProtocolHandle ≠ none → K s.library true
  present : (∃ library ∈ libraries, ¬K library false) → (∀ s ∈ image.statics, s.status = efiSuccess) → after ≠ []

theorem append_swap {α : Type} {a b c : List α} (h : (a ++ (b ++ c)).length ≤ 1) : a ++ (b ++ c) = b ++ (a ++ c) := by
  cases a with
  | nil => rfl
  | cons x a =>
    cases b with
    | nil => rfl
    | cons y b => simp at h

theorem post_constructors (hdb : HandleDatabase boot interfaces) (hdetects : Detects h L I K) (id : Mem) (image : Nat)
    {libraries : List Library} (hlinked : ∀ library ∈ libraries, L library) {d : D} {db : B} (hd : I d)
    (hsingle : (interfaces db).length ≤ 1) :
    Prog.Post (h.sum boot) (processLibraryConstructorList id image libraries) (d, db) fun statics s =>
      I s.1 ∧ Loaded K libraries ⟨image, statics⟩ (interfaces db) (interfaces s.2) := by
  induction libraries generalizing d db with
  | nil => exact .ret ⟨hd, rfl, hsingle, by simp, by simp⟩
  | cons library libraries ih =>
    rw [List.forall_mem_cons] at hlinked
    refine (post_constructor hdb hdetects id ⟨image, library⟩ hlinked.1 hd hsingle).bind ?_
    rintro ⟨status, handle⟩ ⟨d₁, db₁⟩ ⟨found, ⟨hd₁, hfound⟩, hc⟩
    refine (ih hlinked.2 hd₁ hc.single).bind ?_
    rintro statics ⟨d₂, db₂⟩ ⟨hd₂, hrest⟩
    refine .ret ⟨hd₂, ?_, hrest.single, ?_, ?_⟩
    · have hafter := hrest.entries
      have hsingle₂ := hrest.single
      rw [hc.entries] at hafter
      rw [hafter] at hsingle₂ ⊢
      exact (append_swap hsingle₂).trans (List.append_assoc _ _ _).symm
    · rw [List.forall_mem_cons]
      refine ⟨fun hne => ?_, hrest.found⟩
      cases found with
      | false => exact absurd (hc.silent rfl) hne
      | true => exact hfound
    · rintro ⟨lib, hlib, hmust⟩ hall
      rw [List.forall_mem_cons] at hall
      rcases List.mem_cons.1 hlib with rfl | hlib
      · -- what this one has installed, or found installed, is still there
        have hpresent : interfaces db₁ ≠ [] := by
          cases found with
          | false => exact absurd hfound hmust
          | true => exact hc.present rfl hall.1
        rw [hrest.entries]
        exact List.append_ne_nil_of_right_ne_nil _ hpresent
      · exact hrest.present ⟨lib, hlib, hmust⟩ hall.2

theorem post_destructor (hdb : HandleDatabase boot interfaces) (image : Nat) (s : Static) {db : B}
    (hin : ∀ e ∈ s.installed image, e ∈ interfaces db) :
    Prog.Post boot (destructor ⟨image, s.library⟩ s.mProtocolHandle) db fun _ db' =>
      interfaces db' = (s.installed image).foldl List.erase (interfaces db) := by
  have huninstall {db₀ : B} (hsame : interfaces db₀ = interfaces db) :
      Prog.Post boot (uninstallProtocol ⟨image, s.library⟩ s.mProtocolHandle) db₀ fun _ db' =>
        interfaces db' = (s.installed image).foldl List.erase (interfaces db) := by
    cases hhandle : s.mProtocolHandle with
    | none =>
      refine .ret ?_
      simp [Static.installed, hhandle, hsame]
    | some handle =>
      have hmem := hin (handle, ⟨image, s.library⟩) (by simp [Static.installed, hhandle])
      obtain ⟨db', hop, hafter⟩ := hdb.uninstall handle ⟨image, s.library⟩ db₀ (by rwa [hsame])
      refine Prog.Post.perform fun x db'' hop' => ?_
      rw [hop] at hop'
      cases hop'
      simp [Static.installed, hhandle, hafter, hsame]
  unfold destructor
  split
  · exact Prog.Post.bind (.perform fun _ db' hop => hdb.free db db' hop) fun _ db' hsame => huninstall hsame
  · exact huninstall rfl

theorem post_destructors (hdb : HandleDatabase boot interfaces) {image : Nat} {statics : List Static} {db : B}
    {a c : List (Handle × Interface)} (hsplit : interfaces db = a ++ (statics.flatMap (Static.installed image) ++ c))
    (hsingle : (interfaces db).length ≤ 1) :
    Prog.Post boot (processLibraryDestructorList image statics) db fun _ db' => interfaces db' = a ++ c := by
  induction statics generalizing a db with
  | nil => exact .ret hsplit
  | cons s rest ih =>
    have hrest : interfaces db = (a ++ s.installed image) ++ (rest.flatMap (Static.installed image) ++ c) := by
      rw [hsplit, List.flatMap_cons, List.append_assoc, List.append_assoc]
    refine (ih hrest hsingle).bind fun _ db₁ hdb₁ => ?_
    refine (post_destructor hdb image s fun e he => ?_).bind fun _ db₂ hdb₂ => .ret ?_
    · rw [hdb₁]
      simp [he]
    · rw [hdb₂, hdb₁]
      cases hhandle : s.mProtocolHandle with
      | none => simp [Static.installed, hhandle]
      | some handle =>
        rw [hsplit] at hsingle
        simp only [List.flatMap_cons, Static.installed, hhandle, Option.toList_some, List.map_cons, List.map_nil,
          List.length_append, List.length_cons, List.length_nil] at hsingle
        obtain rfl : a = [] := List.eq_nil_of_length_eq_zero (by omega)
        obtain rfl : c = [] := List.eq_nil_of_length_eq_zero (by omega)
        simp [Static.installed, hhandle]

/-! ### Runs -/

/-- The hardware, the handle database, and the images that are loaded. -/
structure World (D B : Type) where
  device : D
  db : B
  images : List Image

/-- What happens to the system: an image is loaded or unloaded, or a client uses the hardware. Images are linked
with libraries in `L`. -/
inductive Step (h : Handler Io D) (boot : Handler Boot B) (L : Library → Prop)
    (client : B → D → D → Prop) : World D B → World D B → Prop
  | load {w : World D B} {libraries : List Library} {id : Mem} {image : Nat} {statics : List Static} {d : D} {db : B} :
      (∀ library ∈ libraries, L library) → (∀ i ∈ w.images, i.id ≠ image) →
      (processLibraryConstructorList id image libraries).exec (h.sum boot) (w.device, w.db) = (.ok statics, d, db) →
      Step h boot L client w ⟨d, db, ⟨image, statics⟩ :: w.images⟩
  | unload {w : World D B} {before after : List Image} {image : Image} {db : B} :
      w.images = before ++ image :: after →
      (processLibraryDestructorList image.id image.statics).exec boot w.db = (.ok (), db) →
      Step h boot L client w ⟨w.device, db, before ++ after⟩
  | client {w : World D B} {d : D} : client w.db w.device d → Step h boot L client w ⟨d, w.db, w.images⟩

/-- The installed protocols are those of the loaded images, and there is one at most; the device is in `I`, and
what was installed was found. -/
structure Consistent (interfaces : B → List (Handle × Interface)) (I : D → Prop) (K : Library → Bool → Prop)
    (w : World D B) : Prop where
  device : I w.device
  entries : interfaces w.db = w.images.flatMap Image.installed
  single : (interfaces w.db).length ≤ 1
  found : ∀ image ∈ w.images, ∀ s ∈ image.statics, s.mProtocolHandle ≠ none → K s.library true

variable {client : B → D → D → Prop} {w w' : World D B}

theorem Step.consistent (hdb : HandleDatabase boot interfaces) (hdetects : Detects h L I K)
    (hclient : ∀ w d, Consistent interfaces I K w → client w.db w.device d → I d) (hstep : Step h boot L client w w')
    (hw : Consistent interfaces I K w) : Consistent interfaces I K w' := by
  cases hstep with
  | @load libraries id image statics d db hlinked _ hexec =>
    obtain ⟨hd, hloaded⟩ := post_constructors hdb hdetects id image hlinked hw.device hw.single _ _ hexec
    refine ⟨hd, ?_, hloaded.single, ?_⟩
    · rw [List.flatMap_cons, ← hw.entries]
      exact hloaded.entries
    · rw [List.forall_mem_cons]
      exact ⟨hloaded.found, hw.found⟩
  | @unload before after image db himages hexec =>
    have hsplit := hw.entries
    rw [himages, List.flatMap_append, List.flatMap_cons] at hsplit
    have hafter := post_destructors hdb hsplit hw.single _ _ hexec
    have hfewer : (interfaces db).length ≤ (interfaces w.db).length := by
      rw [hafter, hsplit]
      simp only [List.length_append]
      omega
    refine ⟨hw.device, ?_, Nat.le_trans hfewer hw.single, fun i hi => hw.found i ?_⟩
    · rw [hafter, List.flatMap_append]
    · rw [himages]
      rw [List.mem_append] at hi ⊢
      exact hi.imp id (List.mem_cons_of_mem _)
  | client hd => exact ⟨hclient _ _ hw hd, hw.entries, hw.single, hw.found⟩

theorem consistent_run (hdb : HandleDatabase boot interfaces) (hdetects : Detects h L I K)
    (hclient : ∀ w d, Consistent interfaces I K w → client w.db w.device d → I d) (hw : Consistent interfaces I K w)
    (hrun : Relation.ReflTransGen (Step h boot L client) w w') : Consistent interfaces I K w' := by
  induction hrun with
  | refl => exact hw
  | tail _ hstep ih => exact hstep.consistent hdb hdetects hclient ih

theorem Image.mem_installed {image : Image} {e : Handle × Interface} (he : e ∈ image.installed) :
    ∃ s ∈ image.statics, e.2 = ⟨image.id, s.library⟩ ∧ s.mProtocolHandle = some e.1 := by
  rw [Image.installed, List.mem_flatMap] at he
  obtain ⟨s, hs, he⟩ := he
  rw [Static.installed, List.mem_map] at he
  obtain ⟨handle, hhandle, rfl⟩ := he
  exact ⟨s, hs, rfl, Option.mem_toList.1 hhandle⟩

theorem Consistent.holder (hw : Consistent interfaces I K w) {e : Handle × Interface} (he : e ∈ interfaces w.db) :
    ∃ image ∈ w.images, ∃ s ∈ image.statics, e.2 = ⟨image.id, s.library⟩ ∧ s.mProtocolHandle = some e.1 := by
  rw [hw.entries, List.mem_flatMap] at he
  obtain ⟨image, himage, he⟩ := he
  exact ⟨image, himage, image.mem_installed he⟩

/-- **At most one EC protocol is installed, and its code is that of an image that is loaded.** -/
theorem handles_loaded (hdb : HandleDatabase boot interfaces) (himages : w.images = []) (hempty : interfaces w.db = [])
    (hrun : Relation.ReflTransGen (Step h boot L client) w w') :
    (interfaces w'.db).length ≤ 1 ∧
      ∀ e ∈ interfaces w'.db, ∃ image ∈ w'.images, ∃ s ∈ image.statics,
        e.2 = ⟨image.id, s.library⟩ ∧ s.mProtocolHandle = some e.1 := by
  have hanything : Detects h L (fun _ => True) fun _ _ => True := fun _ _ _ _ _ _ _ _ => ⟨trivial, trivial⟩
  have hw : Consistent interfaces (fun _ => True) (fun _ _ => True) w :=
    ⟨trivial, by rw [hempty, himages]; rfl, by simp [hempty], by simp [himages]⟩
  have hfinal := consistent_run hdb hanything (fun _ _ _ _ => trivial) hw hrun
  exact ⟨hfinal.single, fun e he => hfinal.holder he⟩

end Database

/-- A database that is the list of the installed protocols, and hands out the same handle every time. -/
def listBoot : Handler Boot (List (Handle × Interface))
  | .installMultipleProtocolInterfaces handle interface, db =>
    if db = [] then .ok ((efiSuccess, some 1), [(1, interface)]) else .ok ((efiAlreadyStarted, handle), db)
  | .uninstallMultipleProtocolInterfaces handle interface, db => .ok (efiSuccess, db.erase (handle, interface))
  | .allocatePool _, db => .ok (true, db)
  | .freePool, db => .ok ((), db)

theorem listBoot_database : HandleDatabase listBoot id where
  installTaken handle interface db hne := ⟨db, if_neg hne, rfl⟩
  installFree interface db hnil := ⟨efiSuccess, some 1, [(1, interface)], if_pos hnil, .inl ⟨rfl, 1, rfl, rfl⟩⟩
  uninstall handle interface db _ := ⟨_, rfl, rfl⟩
  pool size db b db' hop := by
    cases hop
    rfl
  free db db' hop := by
    cases hop
    rfl

/-- Two images with the null library: the first one provides the protocol. -/
theorem handles_loaded_null :
    let statics := fun handle => [Static.mk .null efiSuccess handle]
    ∃ w : World (Bus Unit) (List (Handle × Interface)),
      w.images = [⟨2, statics none⟩, ⟨1, statics (some 1)⟩] ∧ w.db = [(1, ⟨1, .null⟩)] ∧
      ∀ e ∈ w.db, ∃ image ∈ w.images, ∃ s ∈ image.statics,
        e.2 = ⟨image.id, s.library⟩ ∧ s.mProtocolHandle = some e.1 := by
  intro statics
  have hlinked : ∀ library ∈ [Library.null], True := fun _ _ => trivial
  have hfirst : (processLibraryConstructorList (fun _ => 0) 1 [.null]).exec ((npcx idleEc).sum listBoot)
      (⟨(), fun _ => 0, []⟩, []) = (.ok (statics (some 1)), ⟨(), fun _ => 0, []⟩, [(1, ⟨1, .null⟩)]) := rfl
  have hsecond : (processLibraryConstructorList (fun _ => 0) 2 [.null]).exec ((npcx idleEc).sum listBoot)
      (⟨(), fun _ => 0, []⟩, [(1, ⟨1, .null⟩)]) =
        (.ok (statics none), ⟨(), fun _ => 0, []⟩, [(1, ⟨1, .null⟩)]) := rfl
  have hload₁ : Step (npcx idleEc) listBoot (fun _ => True) (fun _ _ _ => False) ⟨⟨(), fun _ => 0, []⟩, [], []⟩
      ⟨⟨(), fun _ => 0, []⟩, [(1, ⟨1, .null⟩)], [⟨1, statics (some 1)⟩]⟩ := .load hlinked (by simp) hfirst
  have hload₂ : Step (npcx idleEc) listBoot (fun _ => True) (fun _ _ _ => False)
      ⟨⟨(), fun _ => 0, []⟩, [(1, ⟨1, .null⟩)], [⟨1, statics (some 1)⟩]⟩
      ⟨⟨(), fun _ => 0, []⟩, [(1, ⟨1, .null⟩)], [⟨2, statics none⟩, ⟨1, statics (some 1)⟩]⟩ :=
    .load hlinked (by simp) hsecond
  exact ⟨_, rfl, rfl, (handles_loaded listBoot_database rfl rfl (.tail (.single hload₁) hload₂)).2⟩

end FrameworkHacks.Discovery
