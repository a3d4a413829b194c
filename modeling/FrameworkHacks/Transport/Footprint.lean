import FrameworkHacks.Transport.Libraries

/-!
# The bytes a Microchip transfer touches

`ECTransfer` asked for `n` bytes at `a` moves `reach a n` of them: its head does not look at the size.
So it moves exactly what it was asked to exactly if the bytes between `n` and `pad a`, if any, agree
on both sides beforehand (`ecTransfer_exact_iff`), and it can be relied on exactly if there are none
(`ecTransfer_exact_always_iff`).
-/

namespace FrameworkHacks.Transport.Mec

open Effects

variable {σ : Type}

/-- The transfer finishes, the `n` bytes arrive, and nothing else changes on either side. -/
def MovesExactly (ec : Ec σ) (direction : Direction) (a off n : Nat) (data : Buf) (d : Emi σ) : Prop :=
  Prog.Ends (emi ec) (ecTransfer direction (UInt16.ofNat a) data off (UInt16.ofNat n)) d
    fun data' d' =>
      match direction with
      | .write => Mem.Replaced d.mem d'.mem (data.bytes.drop off) a n ∧ data' = data
      | .read => Mem.Replaced data.bytes data'.bytes (d.mem.drop a) off n ∧
          data'.size = data.size ∧ d'.mem = d.mem

/-- The bytes the head moves beyond the `n` asked for are in the buffer, and the same on both sides. -/
def ExcessAgrees (a off n : Nat) (data : Buf) (mem : Mem) : Prop :=
  ∀ i, n ≤ i → i < pad a → off + i < data.size ∧ data.bytes (off + i) = mem (a + i)

theorem excessAgrees_of_le {a off n : Nat} (h : pad a ≤ n) (data : Buf) (mem : Mem) :
    ExcessAgrees a off n data mem :=
  fun _ hn hi => absurd (Nat.lt_of_lt_of_le hi h) (Nat.not_lt.2 hn)

/-- A transfer that finishes had all the bytes it moves in the buffer. -/
theorem post_reach (ec : Ec σ) (direction : Direction) (a off n : Nat) (data : Buf) (d : Emi σ)
    (ha : a + n ≤ 0x8000) :
    Prog.Post (emi ec) (ecTransfer direction (UInt16.ofNat a) data off (UInt16.ofNat n)) d
      fun _ _ => 0 < reach a n → off + reach a n ≤ data.size := by
  have hinside := holds_reach direction (UInt16.ofNat a) data off (UInt16.ofNat n)
  rw [UInt16.toNat_ofNat', Nat.mod_eq_of_lt (by omega), UInt16.toNat_ofNat',
    Nat.mod_eq_of_lt (by omega)] at hinside
  exact .of_holds hinside

theorem movesExactly_iff (ec : Ec σ) (direction : Direction) (a off n : Nat) (data : Buf) (d : Emi σ)
    (ha : a + n ≤ 0x8000) (hoff : off + n ≤ data.size) :
    MovesExactly ec direction a off n data d ↔ ExcessAgrees a off n data d.mem := by
  have hreach : n ≤ reach a n := Nat.le_max_left n (pad a)
  by_cases hfit : off + reach a n ≤ data.size
  · obtain ⟨data', d', hexec, hm⟩ := ends_ecTransfer ec direction a off n data d ha hfit
    rw [MovesExactly, Prog.ends_iff hexec]
    -- both conditions are about the bytes from `n` up to `reach a n`
    have hexcess : ExcessAgrees a off n data d.mem ↔
        ∀ i, n ≤ i → i < reach a n → data.bytes (off + i) = d.mem (a + i) := by
      unfold reach at hfit ⊢
      exact ⟨fun h i hn hi => (h i hn (by omega)).2, fun h i hn hi => ⟨by omega, h i hn (by omega)⟩⟩
    cases direction with
    | write =>
      obtain ⟨hdata, hbus⟩ := Prod.mk.inj hm
      have hmem : d'.mem = d.mem.copy a (data.bytes.drop off) (reach a n) := congrArg Bus.mem hbus
      simp only [hmem, hdata, and_true]
      rw [Mem.replaced_copy_iff hreach, hexcess]
      simp only [Mem.drop_apply]
    | read =>
      obtain ⟨hdata, hbus⟩ := Prod.mk.inj hm
      have hmem : d'.mem = d.mem := by
        rw [hbus]
        rfl
      simp only [hmem, hdata, and_true]
      rw [Mem.replaced_copy_iff hreach, hexcess]
      simp only [Mem.drop_apply, eq_comm]
  · refine iff_of_false (fun ⟨data', d', hexec, _⟩ => ?_) fun h => ?_
    · have hinside := post_reach ec direction a off n data d ha data' d' hexec
      omega
    · unfold reach at hfit
      have hlast := h (data.size - off) (by omega) (by omega)
      omega

/-- **The Microchip transfer moves exactly the requested bytes, in either direction, exactly if the
bytes its head moves in excess of them agree beforehand.** -/
theorem ecTransfer_exact_iff (ec : Ec σ) (a off n : Nat) (data : Buf) (d : Emi σ)
    (ha : a + n ≤ 0x8000) (hoff : off + n ≤ data.size) :
    (MovesExactly ec .write a off n data d ↔ ExcessAgrees a off n data d.mem) ∧
      (MovesExactly ec .read a off n data d ↔ ExcessAgrees a off n data d.mem) :=
  ⟨movesExactly_iff ec .write a off n data d ha hoff, movesExactly_iff ec .read a off n data d ha hoff⟩

/-- EC memory that holds 0, 1, 2 and so on, behind an address register at 0. -/
def countingDevice : Emi Unit := ⟨⟨(), fun i => UInt8.ofNat i, []⟩, 0⟩

/-- Six bytes at 0x103, the last byte of a double word, are moved exactly. -/
theorem ecTransfer_exact_six :
    MovesExactly idleEc .write 0x103 0 6 ⟨fun _ => 0xEE, 6⟩ countingDevice ∧
      MovesExactly idleEc .read 0x103 0 6 ⟨fun _ => 0xEE, 6⟩ countingDevice := by
  have h := ecTransfer_exact_iff idleEc 0x103 0 6 ⟨fun _ => 0xEE, 6⟩ countingDevice (by decide)
    (by decide)
  have hagrees : ExcessAgrees 0x103 0 6 ⟨fun _ => 0xEE, 6⟩ countingDevice.mem :=
    excessAgrees_of_le (by decide) _ _
  exact ⟨h.1.2 hagrees, h.2.2 hagrees⟩

/-- One byte at 0x101 is not: two more are moved along with it. -/
theorem ecTransfer_inexact_one :
    ¬ MovesExactly idleEc .write 0x101 0 1 ⟨fun _ => 0xEE, 16⟩ countingDevice ∧
      ¬ MovesExactly idleEc .read 0x101 0 1 ⟨fun _ => 0xEE, 16⟩ countingDevice := by
  have hexcess : ¬ ExcessAgrees 0x101 0 1 ⟨fun _ => 0xEE, 16⟩ countingDevice.mem := fun h =>
    absurd (h 1 (by decide) (by decide)).2 (by decide)
  exact ⟨fun h => hexcess ((movesExactly_iff _ _ _ _ _ _ _ (by decide) (by decide)).1 h),
    fun h => hexcess ((movesExactly_iff _ _ _ _ _ _ _ (by decide) (by decide)).1 h)⟩

/-- **A transfer that is exact whatever the two sides hold is one that reaches the next multiple of
four**, and the other way round. -/
theorem ecTransfer_exact_always_iff [Inhabited σ] (ec : Ec σ) (direction : Direction) (a n : Nat)
    (ha : a + n ≤ 0x8000) :
    (∀ (off : Nat) (data : Buf) (d : Emi σ), off + n ≤ data.size →
      MovesExactly ec direction a off n data d) ↔ pad a ≤ n := by
  constructor
  · intro h
    by_contra hlt
    -- a buffer of zeros against a memory of ones
    have hexact := h 0 ⟨fun _ => 0, n + 4⟩ ⟨⟨default, fun _ => 1, []⟩, 0⟩ (by simp)
    rw [movesExactly_iff ec direction a 0 n _ _ ha (by simp)] at hexact
    exact absurd (hexact n (Nat.le_refl n) (by omega)).2 (by simp)
  · intro h off data d hoff
    exact (movesExactly_iff ec direction a off n data d ha hoff).2 (excessAgrees_of_le h data d.mem)

end FrameworkHacks.Transport.Mec
