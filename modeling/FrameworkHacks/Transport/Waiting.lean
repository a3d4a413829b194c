import Mathlib.Algebra.Group.Int.Defs
import FrameworkHacks.Transport.Handshake

/-!
# How long the ready-wait waits

`ECWaitForReady` against an EC that shows `status k` at the `k`-th poll. The loop counter is advanced
by the delay of the round to come, not by the one just slept, so it runs ahead of the time that has
passed by what the delay has grown. `schedule r` is where the counter and the delay stand before round
`r`, `Pending` is the invariant that ties them to the time slept.
-/

namespace FrameworkHacks.Transport

open Effects

/-! ### The schedule -/

/-- What a busy round does to the counter and the delay. -/
def backoff (s : Int × Int) : Int × Int :=
  let delay := if s.1 > 20 then min (s.2 * 2) 10000 else s.2
  (s.1 + delay, delay)

/-- `(i, delay)` before round `r`, all earlier ones having found the EC busy. -/
def schedule : (r : Nat) → Int × Int
  | 0 => (0, 5)
  | r + 1 => backoff (schedule r)

theorem schedule_succ (r : Nat) : schedule (r + 1) = backoff (schedule r) := rfl

theorem backoff_delay {s : Int × Int} (h : 5 ≤ s.2 ∧ s.2 ≤ 10000) :
    s.2 ≤ (backoff s).2 ∧ (backoff s).2 ≤ 10000 ∧ (backoff s).1 = s.1 + (backoff s).2 := by
  have hnext : (backoff s).2 = if s.1 > 20 then min (s.2 * 2) 10000 else s.2 := rfl
  refine ⟨?_, ?_, rfl⟩
  · rw [hnext]
    split <;> omega
  · rw [hnext]
    split <;> omega

theorem schedule_delay (r : Nat) : 5 ≤ (schedule r).2 ∧ (schedule r).2 ≤ 10000 := by
  induction r with
  | zero => decide
  | succ r ih =>
    obtain ⟨hlow, hhigh, -⟩ := backoff_delay ih
    rw [schedule_succ]
    omega

theorem schedule_step (r : Nat) :
    (schedule r).1 + 5 ≤ (schedule (r + 1)).1 ∧ (schedule (r + 1)).1 ≤ (schedule r).1 + 10000 := by
  have hdelay := schedule_delay (r + 1)
  obtain ⟨-, -, hsum⟩ := backoff_delay (schedule_delay r)
  rw [schedule_succ] at hdelay ⊢
  omega

theorem schedule_mono {q r : Nat} (h : q ≤ r) : (schedule q).1 ≤ (schedule r).1 := by
  induction h with
  | refl => exact Int.le_refl _
  | @step r _ ih =>
    have hstep : (schedule r).1 ≤ (schedule (r + 1)).1 := by
      have h := (schedule_step r).1
      omega
    exact Int.le_trans ih hstep

theorem schedule_nonneg (r : Nat) : 0 ≤ (schedule r).1 := schedule_mono (Nat.zero_le r)

/-- From the seventh round on the counter is past 30 and the delay has grown. -/
theorem schedule_grown {r : Nat} (h : 6 ≤ r) : 35 ≤ (schedule r).1 ∧ 10 ≤ (schedule r).2 := by
  induction h with
  | refl => decide
  | @step r _ ih =>
    have hstep := (schedule_step r).1
    obtain ⟨hlow, -, -⟩ := backoff_delay (schedule_delay r)
    rw [schedule_succ] at hstep ⊢
    omega

theorem schedule_first {r : Nat} (h : r < 6) : schedule r = (5 * (r : Int), 5) := by
  rcases r with _ | _ | _ | _ | _ | _ | r
  iterate 6 rfl
  omega

/-- The counter at the `k`-th poll: steps of 5, then a delay that doubles up to 10000. -/
def pollAt (k : Nat) : Int :=
  if k < 5 then 5 * k else if k ≤ 15 then 15 + 10 * 2 ^ (k - 5) else 10255 + 10000 * ((k - 15 : Nat) : Int)

theorem schedule_last {r : Nat} (h : 16 ≤ r) : schedule r = (10255 + 10000 * ((r - 15 : Nat) : Int), 10000) := by
  induction h with
  | refl => decide
  | @step r hr ih =>
    have hr : 16 ≤ r := hr
    rw [schedule_succ, ih, backoff]
    simp only []
    rw [if_pos (by omega), Int.min_eq_right (by decide)]
    congr 1
    omega

theorem schedule_counter (k : Nat) : (schedule k).1 = pollAt k := by
  by_cases hk : k < 16
  · have hsmall : ∀ k < 16, (schedule k).1 = pollAt k := by decide
    exact hsmall k hk
  · rw [schedule_last (show 16 ≤ k by omega), pollAt, if_neg (by omega), if_neg (by omega)]

/-! ### The EC -/

/-- The polls made and the time slept. -/
structure Polled where
  polls : Nat
  stalled : Nat

/-- An EC whose status register shows `status k` when it is read for the `k`-th time. -/
def statusPort (statusAddr : Nat) (status : Nat → UInt8) : Handler Io Polled
  | .stall usec, p => .ok ((), { p with stalled := p.stalled + usec })
  | .ioRead8 port, p =>
    if port = statusAddr then .ok (status p.polls, { p with polls := p.polls + 1 })
    else .error .fault
  | _, _ => .error .fault

/-- The time slept when the wait gives up after round `r`: a full delay, or what was left. -/
def sleptAtTimeout (timeoutUsec : Int) (r : Nat) : Int :=
  min (schedule r).1 (timeoutUsec - (schedule r).2) + 5

/-- Where the wait stands before a round. While the counter has not passed the timeout it is ahead of
the time slept by the growth of the delay; a last round that was cut short takes it past. -/
structure Pending (timeoutUsec : Int) (status : Nat → UInt8) (s : Int × Int) (p : Polled) : Prop where
  state : s = schedule p.polls
  busy : ∀ k < p.polls, ¬Clear (status k)
  slept : s.1 < timeoutUsec → (p.stalled : Int) + s.2 = s.1 + 5
  past : timeoutUsec ≤ s.1 → ∃ r, p.polls = r + 1 ∧ (schedule r).1 < timeoutUsec ∧
    (p.stalled : Int) = sleptAtTimeout timeoutUsec r

/-- The first clear status was at poll `k`. -/
structure FoundReady (timeoutUsec : Int) (status : Nat → UInt8) (p : Polled) (k : Nat) : Prop where
  last : p.polls = k + 1
  inTime : (schedule k).1 < timeoutUsec
  clear : Clear (status k)
  busy : ∀ j < k, ¬Clear (status j)
  slept : (p.stalled : Int) ≤ timeoutUsec

/-- Every status up to the last poll, `r`, was busy. -/
structure TimedOut (timeoutUsec : Int) (status : Nat → UInt8) (p : Polled) (r : Nat) : Prop where
  last : p.polls = r + 1
  inTime : (schedule r).1 < timeoutUsec
  past : timeoutUsec ≤ (schedule (r + 1)).1
  busy : ∀ j ≤ r, ¬Clear (status j)
  slept : (p.stalled : Int) = sleptAtTimeout timeoutUsec r

/-- How the wait ends. -/
def WaitEnds (timeoutUsec : Int) (status : Nat → UInt8) (rv : Int) (p : Polled) : Prop :=
  (rv = 0 ∧ ∃ k, FoundReady timeoutUsec status p k) ∨
    (rv = -1 ∧ ∃ r, TimedOut timeoutUsec status p r)

section

variable {statusAddr : Nat} {timeoutUsec : Int} {status : Nat → UInt8}

theorem Pending.delay {s : Int × Int} {p : Polled} (hp : Pending timeoutUsec status s p) :
    5 ≤ s.2 ∧ s.2 ≤ 10000 := by
  rw [hp.state]
  exact schedule_delay p.polls

theorem Pending.stalled {s : Int × Int} {p : Polled} (hp : Pending timeoutUsec status s p)
    (htime : s.1 < timeoutUsec) :
    ((p.stalled + (min s.2 (timeoutUsec - s.1)).toNat : Nat) : Int) = sleptAtTimeout timeoutUsec p.polls := by
  have hslept := hp.slept htime
  have hdelay := hp.delay
  rw [sleptAtTimeout, ← hp.state]
  omega

theorem Pending.next {s : Int × Int} {p : Polled} (hp : Pending timeoutUsec status s p)
    (htime : s.1 < timeoutUsec) (hbusy : ¬Clear (status p.polls)) :
    Pending timeoutUsec status (backoff s)
      ⟨p.polls + 1, p.stalled + (min s.2 (timeoutUsec - s.1)).toNat⟩ := by
  have hstall := hp.stalled htime
  obtain ⟨hgrow, hcap, hsum⟩ := backoff_delay hp.delay
  refine ⟨?_, fun k hk => ?_, fun hlt => ?_, fun _ => ?_⟩
  · rw [schedule_succ, ← hp.state]
  · by_cases hlast : k = p.polls
    · rwa [hlast]
    · exact hp.busy k (by simp only [] at hk; omega)
  · -- the counter is not past the timeout, so the sleep was a full one
    simp only [] at hlt ⊢
    rw [hstall, sleptAtTimeout, ← hp.state]
    omega
  · exact ⟨p.polls, rfl, by rwa [← hp.state], hstall⟩

theorem ends_waitRound (hmax : timeoutUsec ≤ 2147473647) (s : Int × Int) (p : Polled)
    (hp : Pending timeoutUsec status s p) :
    Prog.Ends (statusPort statusAddr status) (waitRound statusAddr timeoutUsec s) p fun r p' =>
      Sum.elim (WaitEnds timeoutUsec status · p')
        (fun s' => Pending timeoutUsec status s' p' ∧
          (timeoutUsec - s'.1).toNat < (timeoutUsec - s.1).toNat) r := by
  obtain ⟨i, delay⟩ := s
  have hstate : schedule p.polls = (i, delay) := hp.state.symm
  have hi : 0 ≤ i := by
    have h := schedule_nonneg p.polls
    rwa [hstate] at h
  have hdelay : 5 ≤ delay ∧ delay ≤ 10000 := hp.delay
  unfold waitRound
  simp only []
  by_cases htime : i < timeoutUsec
  · rw [if_pos htime]
    refine Prog.Ends.perform_bind rfl (Prog.Ends.perform_bind (if_pos rfl) ?_)
    by_cases hclear : status p.polls &&& ecLpcStatusBusyMask = 0
    · rw [if_pos hclear]
      refine .pure (.inl ⟨rfl, p.polls, rfl, by rwa [hstate], hclear, hp.busy, ?_⟩)
      have hstall : ((p.stalled + (min delay (timeoutUsec - i)).toNat : Nat) : Int) =
          sleptAtTimeout timeoutUsec p.polls := hp.stalled htime
      rw [hstall, sleptAtTimeout, hstate]
      omega
    · rw [if_neg hclear]
      obtain ⟨hgrow, hcap, hsum⟩ := backoff_delay (s := (i, delay)) hdelay
      have hpending := hp.next htime hclear
      set next := backoff (i, delay) with hdef
      have hadd : addInt i next.2 = (pure next.1 : Prog Io Int) := by
        rw [addInt_of_le (by omega) (by omega), hsum]
      have hround : (do return .inr (← addInt i next.2, next.2) : Prog Io (Int ⊕ (Int × Int))) =
          pure (.inr next) := by
        rw [hadd, pure_bind]
      rw [show (if i > 20 then min (delay * 2) 10000 else delay) = next.2 from rfl, hround]
      exact .pure ⟨hpending, by omega⟩
  · rw [if_neg htime]
    obtain ⟨r, hpolls, hin, hslept⟩ := hp.past (by simp only []; omega)
    refine .pure (.inr ⟨rfl, r, hpolls, hin, ?_, fun j hj => hp.busy j (by omega), hslept⟩)
    rw [← hpolls, hstate]
    simp only []
    omega

theorem ends_wait (statusAddr : Nat) (timeoutUsec : Int) (status : Nat → UInt8)
    (hpos : 0 < timeoutUsec) (hmax : timeoutUsec ≤ 2147473647) :
    Prog.Ends (statusPort statusAddr status) (ecWaitForReady statusAddr timeoutUsec) ⟨0, 0⟩
      (WaitEnds timeoutUsec status) := by
  unfold ecWaitForReady
  refine Prog.Ends.loop (I := Pending timeoutUsec status)
    (fun s p hp => ends_waitRound hmax s p hp) _ _ _ ?_ (by simp only []; omega)
  refine ⟨rfl, fun k hk => absurd hk (Nat.not_lt_zero k), fun _ => rfl, fun h => ?_⟩
  simp only [] at h
  omega

end

/-! ### The full time -/

/-- What the wait promises of a result and the polls and sleeps it took. -/
structure FullTime (timeoutUsec : Int) (status : Nat → UInt8) (rv : Int) (p : Polled) : Prop where
  result : rv = 0 ∨ rv = -1
  ready : rv = 0 → ∃ k, p.polls = k + 1 ∧ Clear (status k)
  first : ∀ k < p.polls, Clear (status k) → rv = 0 ∧ p.polls = k + 1
  timeout : rv = -1 → (∀ k < p.polls, ¬Clear (status k)) ∧ (p.stalled : Int) = timeoutUsec
  bound : (p.stalled : Int) ≤ timeoutUsec

/-- The wait ends, with what it promises. -/
def WaitsFully (statusAddr : Nat) (timeoutUsec : Int) (status : Nat → UInt8) : Prop :=
  Prog.Ends (statusPort statusAddr status) (ecWaitForReady statusAddr timeoutUsec) ⟨0, 0⟩
    (FullTime timeoutUsec status)

section

variable {timeoutUsec : Int} {status : Nat → UInt8}

theorem FoundReady.fullTime {p : Polled} {k : Nat} (h : FoundReady timeoutUsec status p k) :
    FullTime timeoutUsec status 0 p where
  result := .inl rfl
  ready _ := ⟨k, h.last, h.clear⟩
  first j hj hclear := by
    have hlast := h.last
    have hk : ¬j < k := fun hlt => h.busy j hlt hclear
    exact ⟨rfl, by omega⟩
  timeout := nofun
  bound := h.slept

theorem TimedOut.fullTime_iff {p : Polled} {r : Nat} (h : TimedOut timeoutUsec status p r) :
    FullTime timeoutUsec status (-1) p ↔ sleptAtTimeout timeoutUsec r = timeoutUsec := by
  have hlast := h.last
  have hbusy : ∀ k < p.polls, ¬Clear (status k) := fun k hk => h.busy k (by omega)
  constructor
  · exact fun hfull => h.slept.symm.trans (hfull.timeout rfl).2
  · intro hslept
    refine ⟨.inr rfl, nofun, fun k hk hclear => (hbusy k hk hclear).elim, fun _ => ⟨hbusy, ?_⟩, ?_⟩
    · rw [h.slept, hslept]
    · exact Int.le_of_eq (h.slept.trans hslept)

/-- A wait that gives up has slept its full time only if the delay never grew. -/
theorem sleptAtTimeout_eq_iff {r : Nat} (hin : (schedule r).1 < timeoutUsec)
    (hover : timeoutUsec ≤ (schedule (r + 1)).1) :
    sleptAtTimeout timeoutUsec r = timeoutUsec ↔ timeoutUsec ≤ 30 := by
  have hdelay := schedule_delay r
  unfold sleptAtTimeout
  by_cases hr : r < 6
  · rw [schedule_first hr] at hin hdelay ⊢
    have hcases : r < 5 ∨ r = 5 := by omega
    rcases hcases with hr | rfl
    · rw [schedule_first (by omega)] at hover
      simp only [] at hin hover ⊢
      omega
    · simp only [] at hin ⊢
      omega
  · have hgrown := schedule_grown (r := r) (by omega)
    constructor
    · intro h
      omega
    · intro h
      omega

/-- The wait gives the EC its full time exactly where the timeout is so short that the delay does not
grow, or the EC becomes ready while the counter is below the timeout. -/
theorem waitsFully_iff (statusAddr : Nat) (timeoutUsec : Int) (status : Nat → UInt8)
    (hpos : 0 < timeoutUsec) (hmax : timeoutUsec ≤ 2147483647 - 10000) :
    WaitsFully statusAddr timeoutUsec status ↔
      timeoutUsec ≤ 30 ∨ ∃ k, pollAt k < timeoutUsec ∧ Clear (status k) := by
  obtain ⟨rv, p, hexec, hend⟩ := ends_wait statusAddr timeoutUsec status hpos hmax
  rw [WaitsFully, Prog.ends_iff hexec]
  rcases hend with ⟨rfl, k, h⟩ | ⟨rfl, r, h⟩
  · exact ⟨fun _ => .inr ⟨k, schedule_counter k ▸ h.inTime, h.clear⟩, fun _ => h.fullTime⟩
  · rw [h.fullTime_iff, sleptAtTimeout_eq_iff h.inTime h.past]
    have hbusy : ¬∃ k, pollAt k < timeoutUsec ∧ Clear (status k) := by
      rintro ⟨k, hin, hclear⟩
      rw [← schedule_counter] at hin
      have hpast := h.past
      by_cases hk : k ≤ r
      · exact h.busy k hk hclear
      · have hmono := schedule_mono (q := r + 1) (r := k) (by omega)
        omega
    exact ⟨.inl, fun h => h.resolve_right hbusy⟩

theorem waitsFully_iff_command :
    WaitsFully ecLpcAddrHostCmd 1000000 (fun _ => 0) ↔
      (1000000 : Int) ≤ 30 ∨ ∃ k, pollAt k < 1000000 ∧ Clear ((fun _ => 0) k) :=
  waitsFully_iff ecLpcAddrHostCmd 1000000 (fun _ => 0) (by decide) (by decide)

/-- With the timeout of a host command and an EC that stays busy, the wait ends early. -/
theorem not_waitsFully_command : ¬WaitsFully ecLpcAddrHostCmd 1000000 fun _ => 0x02 := by
  intro hfull
  obtain ⟨rv, p, hexec, hend⟩ := ends_wait ecLpcAddrHostCmd 1000000 (fun _ => 0x02) (by decide) (by decide)
  rw [WaitsFully, Prog.ends_iff hexec] at hfull
  rcases hend with ⟨-, k, h⟩ | ⟨rfl, r, h⟩
  · exact absurd h.clear (by unfold Clear; decide)
  · rw [h.fullTime_iff, sleptAtTimeout_eq_iff h.inTime h.past] at hfull
    exact absurd hfull (by decide)

end

end FrameworkHacks.Transport
