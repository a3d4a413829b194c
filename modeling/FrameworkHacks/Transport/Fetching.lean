import FrameworkHacks.Library.History
import FrameworkHacks.Transport.Transfer

/-!
# The bytes that a read brings

Nothing is assumed of the ports here. Whatever they return, a transfer from the EC puts the bytes it reads into
the buffer, each once and in order, and changes nothing else there (`Fetches`). That is so for both libraries, if
the Microchip one is asked for bytes up to the next multiple of four at least.
-/

namespace FrameworkHacks.Transport

open Effects

/-- The bytes that a port access returns. -/
def IoOp.fetched : (op : IoOp) → op.Ans → List UInt8
  | .ioRead8 _, v => [v]
  | .ioRead16 _, v => Mem.le16Bytes v.toNat
  | .ioWrite8 .., _ => []
  | .ioWrite16 .., _ => []
  | .stall _, _ => []

def fetched (t : Trace Io) : List UInt8 := t.flatMap fun e => e.op.fetched e.ans

theorem fetched_snoc (t : Trace Io) (op : IoOp) (x : op.Ans) :
    fetched (t ++ [⟨op, x⟩]) = fetched t ++ op.fetched x := by
  rw [fetched, List.flatMap_append, List.flatMap_singleton]
  rfl

/-- Since `pre`, `n` bytes have been read, and they are in the buffer from `off` on. -/
def Brought (pre : Trace Io) (off : Nat) (data : Buf) (n : Nat) (data' : Buf) (t : Trace Io) : Prop :=
  ∃ got, got.length = n ∧ fetched t = fetched pre ++ got ∧ data' = data.patch off got

namespace Brought

variable {pre t t' : Trace Io} {off n k : Nat} {data data' data'' : Buf}

theorem refl (pre : Trace Io) (off : Nat) (data : Buf) : Brought pre off data 0 data pre :=
  ⟨[], rfl, (List.append_nil _).symm, (Buf.patch_nil data off).symm⟩

theorem trans (h : Brought pre off data n data' t) (h' : Brought t (off + n) data' k data'' t') :
    Brought pre off data (n + k) data'' t' := by
  obtain ⟨got, rfl, hgot, rfl⟩ := h
  obtain ⟨got', rfl, hgot', rfl⟩ := h'
  refine ⟨got ++ got', List.length_append, ?_, Buf.patch_append data off got got'⟩
  rw [hgot', hgot, List.append_assoc]

theorem skip (h : Brought pre off data n data' t) {op : IoOp} {x : op.Ans} (hx : op.fetched x = []) :
    Brought pre off data n data' (t ++ [⟨op, x⟩]) := by
  obtain ⟨got, hlength, hgot, hdata⟩ := h
  refine ⟨got, hlength, ?_, hdata⟩
  rw [fetched_snoc, hx, List.append_nil, hgot]

end Brought

/-- If the program ends, its result and history satisfy `Q`. -/
abbrev Leaves {α : Type} (Q : α → Trace Io → Prop) (p : Prog Io α) (pre : Trace Io) : Prop :=
  Prog.Along (fun _ => True) (fun _ => True) (fun _ _ => True) Q p pre

/-- A read of bytes up to the next multiple of four at least brings exactly these. -/
def Fetches (xfer : EcTransfer) : Prop :=
  ∀ (address : UInt16) data off (size : UInt16) pre, Mec.pad address.toNat ≤ size.toNat →
    Leaves (Brought pre off data size.toNat) (xfer .read address data off size) pre

theorem leaves_transferByte (port : Nat) (data : Buf) (i : Nat) (pre : Trace Io) :
    Leaves (Brought pre i data 1) (transferByte .read port data i) pre := by
  unfold transferByte
  refine Prog.Along.perform_bind fun v => ⟨trivial, fun _ => ?_⟩
  unfold Buf.store
  split
  · refine ⟨[v], rfl, fetched_snoc pre (.ioRead8 port) v, ?_⟩
    rw [Buf.patch, Mem.patch_singleton]
  · trivial

theorem Azalea.fetches : Fetches ecTransfer := by
  intro address data off size pre _
  unfold ecTransfer
  refine (Prog.Along.forRange (I := Brought pre off data) 0 size.toNat ?_ data pre (.refl ..)).post ?_
  · intro i data' t _ _ hi
    exact (leaves_transferByte _ data' (off + i) t).post fun data'' t' h => hi.trans h
  · intro data' t h
    rwa [Nat.zero_add] at h

namespace Mec

theorem leaves_dword (data : Buf) (i : Nat) (pre : Trace Io) :
    Leaves (Brought pre i data 4) (transferDword .read data i) pre := by
  unfold transferDword
  refine Prog.Along.perform_bind fun v => ⟨trivial, fun _ => ?_⟩
  refine Prog.Along.perform_bind fun w => ⟨trivial, fun _ => ?_⟩
  unfold Buf.copyIn
  split
  · refine ⟨Mem.le16Bytes v.toNat ++ Mem.le16Bytes w.toNat, rfl, ?_, rfl⟩
    rw [fetched_snoc, fetched_snoc, List.append_assoc]
    rfl
  · trivial

/-- What the phases of a transfer keep: the bytes so far are in the buffer. -/
def Fetching (pre : Trace Io) (off : Nat) (data : Buf) (c : Cursor) (t : Trace Io) : Prop :=
  Brought pre off data c.pos c.data t

theorem leaves_head (address : UInt16) (data : Buf) (off : Nat) (pre : Trace Io) :
    Leaves (fun c t => c.pos = pad address.toNat ∧ Fetching pre off data c t)
      (transferHead .read off ⟨0, address, data⟩) pre := by
  have hmod : (address % 4).toNat = address.toNat % 4 := by
    rw [UInt16.toNat_mod]
    rfl
  unfold transferHead
  by_cases hpad : address % 4 > 0
  · have hpos : 0 < address.toNat % 4 := by
      rw [← hmod]
      exact UInt16.lt_iff_toNat_lt.1 hpad
    rw [if_pos hpad]
    refine Prog.Along.perform_bind fun _ => ⟨trivial, fun _ => ?_⟩
    simp only [hmod]
    refine Prog.Along.bind (Prog.Along.forRange (I := fun i s t => i = address.toNat % 4 + s.1 ∧
      Brought pre off data s.1 s.2 t) _ _ ?_ (0, data) _ ⟨rfl, (Brought.refl pre off data).skip rfl⟩) ?_
    · rintro i ⟨pos, data'⟩ t - - ⟨hi, hfetching⟩
      refine (leaves_transferByte _ data' (off + pos) t).bind fun data'' t' h => ⟨?_, hfetching.trans h⟩
      simp only at hi ⊢
      omega
    · rintro ⟨pos, data'⟩ t ⟨hend, hfetching⟩
      refine ⟨?_, hfetching⟩
      simp only [pad] at hend ⊢
      omega
  · have hzero : address.toNat % 4 = 0 := by
      have := mt UInt16.lt_iff_toNat_lt.2 hpad
      rw [hmod] at this
      simpa using this
    rw [if_neg hpad]
    exact ⟨by simp [pad, hzero], Brought.refl pre off data⟩

theorem leaves_body {pre t : Trace Io} {off : Nat} {data : Buf} {size : UInt16} {c : Cursor}
    (hle : c.pos ≤ size.toNat) (hc : Fetching pre off data c t) :
    Leaves (fun c' t' => c'.pos ≤ size.toNat ∧ Fetching pre off data c' t') (transferBody .read off size c) t := by
  unfold transferBody
  split
  · refine Prog.Along.perform_bind fun _ => ⟨trivial, fun _ => ?_⟩
    refine Prog.Along.loop (I := fun c' t' => c'.pos ≤ size.toNat ∧ Fetching pre off data c' t') trivial ?_ _ _ _
      ⟨hle, hc.skip rfl⟩
    rintro c t ⟨hle, hc⟩
    unfold dwordRound
    split
    · refine (leaves_dword c.data (off + c.pos) t).bind fun data' t' h => ⟨?_, hc.trans h⟩
      simp only
      omega
    · exact ⟨hle, hc⟩
  · exact ⟨hle, hc⟩

theorem leaves_tail {pre t : Trace Io} {off : Nat} {data : Buf} {size : UInt16} {c : Cursor}
    (hle : c.pos ≤ size.toNat) (hc : Fetching pre off data c t) :
    Leaves (Brought pre off data size.toNat) (transferTail .read off size c) t := by
  unfold transferTail
  split
  · refine Prog.Along.perform_bind fun _ => ⟨trivial, fun _ => ?_⟩
    refine (Prog.Along.forRange (I := fun i data' t' => Brought pre off data (c.pos + i) data' t') 0
      (size.toNat - c.pos) ?_ c.data _ (hc.skip rfl)).post ?_
    · intro i data' t' _ _ hi
      exact (leaves_transferByte _ data' (off + (c.pos + i)) t').post fun data'' t'' h => hi.trans h
    · intro data' t' h
      rwa [show c.pos + (0 + (size.toNat - c.pos)) = size.toNat by omega] at h
  · have hend : c.pos = size.toNat := by omega
    rw [Fetching, hend] at hc
    exact hc

theorem fetches : Fetches ecTransfer := by
  intro address data off size pre hpad
  unfold ecTransfer
  refine (leaves_head address data off pre).bind fun c t hc => ?_
  refine (leaves_body (by omega) hc.2).bind fun c' t' hc' => ?_
  exact leaves_tail hc'.1 hc'.2

end Mec

end FrameworkHacks.Transport
