import FrameworkHacks.ECTool.FlashCommands

/-!
# What an erase that succeeds means

`flash_erase` asks again while it gets errors: for the result of a version 1 erase, or with HELLO
after one of version 0. It does not look at the error, so an erase the EC has refused may still be
reported as done. `flashErase_honest_iff` says when: if the EC, having refused, goes on to answer
with success.
-/

namespace FrameworkHacks.ECTool

open Effects

/-! ### Requests and replies -/

def versionsRequest : HostCommand := ⟨ecCmdGetCmdVersions, 0, [UInt8.ofNat ecCmdFlashErase], 4⟩

/-- `FLASH_ERASE` version 0. -/
def eraseRequest (offset size : Int) : HostCommand :=
  ⟨ecCmdFlashErase, 0, offsetSize (toUint32 offset) (toUint32 size), 0⟩

/-- `FLASH_ERASE` version 1. -/
def eraseRequestV1 (cmd : UInt8) (offset size : Int) : HostCommand :=
  ⟨ecCmdFlashErase, 1, eraseParams cmd (toUint32 offset) (toUint32 size), 0⟩

def helloRequest : HostCommand := ⟨ecCmdHello, 0, Mem.le32Bytes 0, 4⟩

/-- An error that leaves open what becomes of the erase: no answer in time, or, asked for the result
of an erase, an EC that is still busy with it. -/
def LeavesOpen (c : HostCommand) (rv : Int) : Prop :=
  rv = -EcStatus.timeout.code ∨ c.version = 1 ∧ rv = -eecresult - EcStatus.busy.code

/-- The EC has refused an erase, or tells that it failed. -/
def Refuses (e : Event Services) : Prop :=
  match e with
  | ⟨.sendCommand c, r⟩ => c.command = ecCmdFlashErase ∧ r.rv < 0 ∧ ¬LeavesOpen c r.rv
  | _ => False

/-- A reply other than an error. -/
def Succeeds (e : Event Services) : Prop :=
  match e with
  | ⟨.sendCommand _, r⟩ => 0 ≤ r.rv
  | _ => False

/-! ### What success should mean -/

/-- The erase was accepted, and the first reply about its result that left nothing open was success. -/
def AsyncErased (offset size : Int) (t : Trace Services) : Prop :=
  ∃ a w r x, t = replied (eraseRequestV1 flashEraseSectorAsync offset size) a ::
      (w ++ replied (eraseRequestV1 flashEraseGetResult offset size) r :: x) ∧
    0 ≤ a.rv ∧ 0 ≤ r.rv ∧
    ∀ r', replied (eraseRequestV1 flashEraseGetResult offset size) r' ∈ w →
      LeavesOpen (eraseRequestV1 flashEraseGetResult offset size) r'.rv

/-- The erase was answered with success, or timed out and a HELLO after it succeeded. -/
def SyncErased (offset size : Int) (t : Trace Services) : Prop :=
  ∃ r x, t = replied (eraseRequest offset size) r :: x ∧
    (0 ≤ r.rv ∨ r.rv = -EcStatus.timeout.code ∧ ∃ h, replied helloRequest h ∈ x ∧ 0 ≤ h.rv)

/-- The value `rv` that `flash_erase` returned after the events `t` tells what became of the erase. -/
structure Honest (offset size : Int) (t : Trace Services) (rv : Int) : Prop where
  success : 0 ≤ rv → ∃ rgv r u, t = ⟨.indeterminate, rgv⟩ :: replied versionsRequest r :: u ∧
    if (eraseVersionMask r rgv).testBit 1 then AsyncErased offset size u else SyncErased offset size u
  refused : (∃ e ∈ t, Refuses e) → rv < 0

/-- No refusal is followed by a reply other than an error. -/
def Steadfast (t : Trace Services) : Prop := t.Pairwise fun e e' => Refuses e → ¬Succeeds e'

theorem Honest.of_neg {offset size : Int} {t : Trace Services} {rv : Int} (h : rv < 0) :
    Honest offset size t rv :=
  ⟨fun h' => by omega, fun _ => h⟩

theorem not_succeeds {c : HostCommand} {r : Reply} (h : r.rv < 0) : ¬Succeeds (replied c r) := by
  simp only [Succeeds, replied]
  omega

theorem not_refuses {c : HostCommand} {r : Reply} (h : 0 ≤ r.rv) : ¬Refuses (replied c r) := by
  rintro ⟨-, hneg, -⟩
  omega

theorem not_refuses_of_ne {c : HostCommand} {r : Reply} (h : c.command ≠ ecCmdFlashErase) :
    ¬Refuses (replied c r) := fun hr => h hr.1

/-! ### Asking again -/

/-- Stalls, and requests `c` answered with errors. -/
def Waits (c : HostCommand) (w : Trace Services) : Prop :=
  ∀ e ∈ w, (∃ n, e = ⟨.stall n, ()⟩) ∨ ∃ r, e = replied c r ∧ r.rv < 0

/-- The request `c` is repeated while it is answered with an error; `rv` is the last answer. -/
def Polled (c : HostCommand) (t : Trace Services) (rv : Int) : Prop :=
  rv < 0 ∧ Waits c t ∨ 0 ≤ rv ∧ ∃ w r, t = w ++ [replied c r] ∧ Waits c w ∧ r.rv = rv

theorem Waits.not_succeeds {c : HostCommand} {w : Trace Services} (h : Waits c w) :
    ∀ e ∈ w, ¬Succeeds e := by
  intro e he
  rcases h e he with ⟨n, rfl⟩ | ⟨r, rfl, hr⟩
  · exact not_false
  · exact ECTool.not_succeeds hr

theorem waits_pair {c : HostCommand} {n : Nat} {r : Reply} (h : r.rv < 0) :
    Waits c [⟨.stall n, ()⟩, replied c r] := by
  intro e he
  rcases List.mem_pair.1 he with rfl | rfl
  · exact .inl ⟨n, rfl⟩
  · exact .inr ⟨r, rfl, h⟩

theorem Waits.append {c : HostCommand} {w x : Trace Services} (hw : Waits c w) (hx : Waits c x) :
    Waits c (w ++ x) := by
  intro e he
  rcases List.mem_append.1 he with he | he
  · exact hw e he
  · exact hx e he

theorem Polled.cons {c : HostCommand} {n : Nat} {r : Reply} {t : Trace Services} {rv : Int}
    (hr : r.rv < 0) (h : Polled c t rv) : Polled c (⟨.stall n, ()⟩ :: replied c r :: t) rv := by
  rcases h with ⟨hneg, hw⟩ | ⟨hpos, w, r', rfl, hw, hr'⟩
  · exact .inl ⟨hneg, (waits_pair hr).append hw⟩
  · exact .inr ⟨hpos, _, r', rfl, (waits_pair hr).append hw, hr'⟩

theorem Polled.last {c : HostCommand} {n : Nat} {r : Reply} :
    Polled c [⟨.stall n, ()⟩, replied c r] r.rv := by
  by_cases hr : r.rv < 0
  · exact .inl ⟨hr, waits_pair hr⟩
  · refine .inr ⟨by omega, [⟨.stall n, ()⟩], r, rfl, ?_, rfl⟩
    intro e he
    exact .inl ⟨n, List.mem_singleton.1 he⟩

theorem getResult_polled {offset size : Int} {n : Nat} {t : Trace Services} {rv : Int}
    (h : Run (Prog.loop (getResultRound offset size) n n) t (.done rv)) :
    Polled (eraseRequestV1 flashEraseGetResult offset size) t rv := by
  induction n generalizing t with
  | zero => cases h
  | succ n ih =>
    rw [Prog.loop_succ] at h
    obtain ⟨u, v, a, rfl, hu, hv⟩ := h.bind_done
    unfold getResultRound at hu
    obtain ⟨-, w, rfl, hw⟩ := hu.perform_bind_done
    obtain ⟨r, x, rfl, hx⟩ := hw.perform_bind_done
    split at hx
    · obtain ⟨rfl, rfl⟩ := hx.pure_done
      exact .cons (And.left ‹_›) (ih hv)
    · obtain ⟨rfl, rfl⟩ := hx.pure_done
      obtain ⟨rfl, rfl⟩ := hv.pure_done
      exact .last

theorem hello_stop {fuel tries : Nat} {rv₀ rv : Int} {t : Trace Services} (hpos : 0 ≤ rv₀)
    (h : Run (Prog.loop helloRound fuel (rv₀, tries)) t (.done rv)) : t = [] ∧ rv = rv₀ := by
  cases fuel with
  | zero => cases h
  | succ fuel =>
    rw [Prog.loop_succ, helloRound] at h
    rw [if_neg fun hagain => by omega] at h
    exact h.pure_done

theorem hello_polled {n : Nat} {rv₀ : Int} {t : Trace Services} {rv : Int} (hneg : rv₀ < 0)
    (h : Run (Prog.loop helloRound (n + 1) (rv₀, n)) t (.done rv)) :
    Polled helloRequest t rv := by
  induction n generalizing rv₀ t with
  | zero =>
    rw [Prog.loop_succ, helloRound] at h
    rw [if_neg fun hagain => hagain.2 rfl] at h
    obtain ⟨rfl, rfl⟩ := h.pure_done
    exact .inl ⟨hneg, by simp [Waits]⟩
  | succ n ih =>
    rw [Prog.loop_succ, helloRound] at h
    rw [if_pos ⟨hneg, Nat.succ_ne_zero n⟩] at h
    obtain ⟨u, v, a, rfl, hu, hv⟩ := h.bind_done
    obtain ⟨-, w, rfl, hw⟩ := hu.perform_bind_done
    obtain ⟨r, x, rfl, hx⟩ := hw.perform_bind_done
    obtain ⟨rfl, rfl⟩ := hx.pure_done
    by_cases hr : r.rv < 0
    · exact .cons hr (ih hr hv)
    · obtain ⟨rfl, rfl⟩ := hello_stop (by omega) hv
      exact .last

/-! ### The whole erase -/

/-- What a finished run of `flash_erase` looks like. -/
theorem flashErase_run {offset size : Int} {t : Trace Services} {rv : Int}
    (h : Run (flashErase offset size) t (.done rv)) :
    ∃ rgv r u, t = ⟨.indeterminate, rgv⟩ :: replied versionsRequest r :: u ∧
      if (eraseVersionMask r rgv).testBit 1 then
        ∃ a x, u = replied (eraseRequestV1 flashEraseSectorAsync offset size) a :: x ∧
          (a.rv < 0 ∧ x = [] ∧ rv = a.rv ∨
            0 ≤ a.rv ∧ Polled (eraseRequestV1 flashEraseGetResult offset size) x rv)
      else
        ∃ e x, u = replied (eraseRequest offset size) e :: x ∧
          (0 ≤ e.rv ∧ x = [] ∧ rv = e.rv ∨ e.rv < 0 ∧ Polled helloRequest x rv) := by
  unfold flashErase at h
  obtain ⟨rgv, u, rfl, hu⟩ := h.perform_bind_done
  obtain ⟨r, v, rfl, hv⟩ := hu.perform_bind_done
  refine ⟨rgv, r, v, rfl, ?_⟩
  split
  · rename_i hmask
    rw [if_pos hmask] at hv
    obtain ⟨a, x, rfl, hx⟩ := hv.perform_bind_done
    refine ⟨a, x, rfl, ?_⟩
    split at hx
    · obtain ⟨rfl, rfl⟩ := hx.pure_done
      exact .inl ⟨‹_›, rfl, rfl⟩
    · exact .inr ⟨by omega, getResult_polled hx⟩
  · rename_i hmask
    rw [if_neg hmask] at hv
    obtain ⟨e, x, rfl, hx⟩ := hv.perform_bind_done
    refine ⟨e, x, rfl, ?_⟩
    by_cases he : e.rv < 0
    · exact .inr ⟨he, hello_polled he hx⟩
    · exact .inl ⟨by omega, hello_stop (by omega) hx⟩

theorem steadfast_cons {e : Event Services} {t : Trace Services} (he : ¬Refuses e) :
    Steadfast (e :: t) ↔ Steadfast t := by
  simp [Steadfast, List.pairwise_cons, he]

theorem steadfast_of_not_succeeds {t : Trace Services} (h : ∀ e ∈ t, ¬Succeeds e) : Steadfast t :=
  List.Pairwise.imp_of_mem (fun _ hb _ _ => h _ hb) (List.pairwise_of_forall fun _ _ => trivial)

theorem steadfast_of_not_refuses {t : Trace Services} (h : ∀ e ∈ t, ¬Refuses e) : Steadfast t :=
  List.Pairwise.imp_of_mem (fun ha _ _ hrefuses => absurd hrefuses (h _ ha))
    (List.pairwise_of_forall fun _ _ => trivial)

/-- A success at the end tells that nothing before was a refusal. -/
theorem Steadfast.not_refuses {w : Trace Services} {c : HostCommand} {r : Reply}
    (h : Steadfast (w ++ [replied c r])) (hr : 0 ≤ r.rv) : ∀ e ∈ w ++ [replied c r], ¬Refuses e := by
  intro e he
  rcases List.mem_append.1 he with he | he
  · exact fun hrefuses =>
      (List.pairwise_append.1 h).2.2 e he _ (List.mem_singleton_self _) hrefuses hr
  · rw [List.mem_singleton.1 he]
    exact ECTool.not_refuses hr

theorem Polled.asyncErased {offset size : Int} {a : Reply} {x : Trace Services} {rv : Int}
    (ha : 0 ≤ a.rv) (h : Polled (eraseRequestV1 flashEraseGetResult offset size) x rv) (hpos : 0 ≤ rv)
    (hs : Steadfast (replied (eraseRequestV1 flashEraseSectorAsync offset size) a :: x)) :
    (∀ e ∈ replied (eraseRequestV1 flashEraseSectorAsync offset size) a :: x, ¬Refuses e) ∧
      AsyncErased offset size (replied (eraseRequestV1 flashEraseSectorAsync offset size) a :: x) := by
  rcases h with ⟨hneg, -⟩ | ⟨-, w, r, rfl, hw, rfl⟩
  · omega
  have hnot := hs.not_refuses (w := replied (eraseRequestV1 flashEraseSectorAsync offset size) a :: w) hpos
  refine ⟨hnot, a, w, r, [], rfl, ha, hpos, fun r' hr' => ?_⟩
  have hneg : r'.rv < 0 := by
    rcases hw _ hr' with ⟨n, hn⟩ | ⟨r'', hr'', hneg⟩
    · cases hn
    · cases hr''
      exact hneg
  have hmem : replied (eraseRequestV1 flashEraseGetResult offset size) r' ∈
      replied (eraseRequestV1 flashEraseSectorAsync offset size) a :: w ++
        [replied (eraseRequestV1 flashEraseGetResult offset size) r] := by simp [hr']
  by_contra hopen
  exact hnot _ hmem ⟨rfl, hneg, hopen⟩

theorem Polled.syncErased {offset size : Int} {e : Reply} {x : Trace Services} {rv : Int}
    (he : e.rv < 0) (h : Polled helloRequest x rv) (hpos : 0 ≤ rv)
    (hs : Steadfast (replied (eraseRequest offset size) e :: x)) :
    (∀ e' ∈ replied (eraseRequest offset size) e :: x, ¬Refuses e') ∧
      SyncErased offset size (replied (eraseRequest offset size) e :: x) := by
  rcases h with ⟨hneg, -⟩ | ⟨-, w, r, rfl, hw, rfl⟩
  · omega
  have hnot := hs.not_refuses (w := replied (eraseRequest offset size) e :: w) hpos
  refine ⟨hnot, e, _, rfl, .inr ⟨?_, r, by simp, hpos⟩⟩
  by_contra htimeout
  refine hnot _ (List.mem_cons_self ..) ⟨rfl, he, ?_⟩
  rintro (hopen | ⟨hversion, -⟩)
  · exact htimeout hopen
  · cases hversion

theorem flashErase_steadfast {offset size : Int} {t : Trace Services} {rv : Int}
    (h : Run (flashErase offset size) t (.done rv)) (hneg : rv < 0) : Steadfast t := by
  obtain ⟨rgv, r, u, rfl, hu⟩ := flashErase_run h
  have hpolled {c : HostCommand} {x : Trace Services} (hx : Polled c x rv) : ∀ e ∈ x, ¬Succeeds e := by
    rcases hx with ⟨-, hw⟩ | ⟨hpos, -⟩
    · exact hw.not_succeeds
    · omega
  rw [steadfast_cons id, steadfast_cons (not_refuses_of_ne (by decide))]
  split at hu
  · obtain ⟨a, x, rfl, ⟨-, rfl, -⟩ | ⟨ha, hx⟩⟩ := hu
    · exact List.pairwise_singleton _ _
    · rw [steadfast_cons (not_refuses ha)]
      exact steadfast_of_not_succeeds (hpolled hx)
  · obtain ⟨e, x, rfl, ⟨he, -, rfl⟩ | ⟨he, hx⟩⟩ := hu
    · omega
    · apply steadfast_of_not_succeeds
      intro e' he'
      rcases List.mem_cons.1 he' with rfl | he'
      · exact not_succeeds he
      · exact hpolled hx e' he'

/-- An EC without `GET_CMD_VERSIONS` that answers the erase with `rv` and the first HELLO. -/
def helloTrace (rv : Int) : Trace Services :=
  [⟨.indeterminate, fun _ => 0⟩, replied versionsRequest ⟨-1001, []⟩,
    replied (eraseRequest 0 4096) ⟨rv, []⟩, ⟨.stall 100000, ()⟩,
    replied helloRequest ⟨4, [0xd4, 0xc3, 0xb2, 0xa1]⟩]

theorem run_helloTrace {rv : Int} (h : rv < 0) : Run (flashErase 0 4096) (helloTrace rv) (.done 4) := by
  have hmask : eraseVersionMask ⟨-1001, []⟩ (fun _ => 0) = 0 := if_pos (by decide)
  unfold flashErase
  apply Run.perform_bind
  apply Run.perform_bind
  rw [hmask, if_neg (by decide)]
  apply Run.perform_bind
  rw [Prog.loop_succ, helloRound, if_pos ⟨h, by decide⟩]
  simp only [bind_assoc, pure_bind]
  apply Run.perform_bind
  apply Run.perform_bind
  rw [Prog.loop_succ, helloRound, if_neg fun hagain => absurd hagain.1 (by decide)]
  exact .ret 4

/-- An erase that was denied is reported as done. -/
theorem flashErase_dishonest :
    ¬∀ (offset size : Int) (t : Trace Services) (rv : Int), Run (flashErase offset size) t (.done rv) →
      Honest offset size t rv := by
  intro h
  have hneg := (h 0 4096 (helloTrace (-1004)) 4 (run_helloTrace (by decide))).refused
    ⟨replied (eraseRequest 0 4096) ⟨-1004, []⟩, by simp [helloTrace], rfl, by decide, by
      unfold LeavesOpen
      decide⟩
  exact absurd hneg (by decide)

/-- **When the value of `flash_erase` is honest.** -/
theorem flashErase_honest_iff (offset size : Int) (t : Trace Services) (rv : Int)
    (h : Run (flashErase offset size) t (.done rv)) : Honest offset size t rv ↔ Steadfast t := by
  by_cases hneg : rv < 0
  · exact iff_of_true (.of_neg hneg) (flashErase_steadfast h hneg)
  have hpos : 0 ≤ rv := by omega
  refine ⟨fun honest => steadfast_of_not_refuses fun e he hr => hneg (honest.refused ⟨e, he, hr⟩),
    fun hs => ?_⟩
  obtain ⟨rgv, r, u, rfl, hu⟩ := flashErase_run h
  rw [steadfast_cons id, steadfast_cons (not_refuses_of_ne (by decide))] at hs
  suffices hmain : (∀ e ∈ u, ¬Refuses e) ∧
      if (eraseVersionMask r rgv).testBit 1 then AsyncErased offset size u
      else SyncErased offset size u by
    refine ⟨fun _ => ⟨rgv, r, u, rfl, hmain.2⟩, ?_⟩
    rintro ⟨e, he, hr⟩
    rcases List.mem_cons.1 he with rfl | he
    · exact hr.elim
    rcases List.mem_cons.1 he with rfl | he
    · exact absurd hr (not_refuses_of_ne (by decide))
    · exact absurd hr (hmain.1 e he)
  by_cases hmask : (eraseVersionMask r rgv).testBit 1 = true
  · rw [if_pos hmask] at hu ⊢
    obtain ⟨a, x, rfl, ⟨ha, -, rfl⟩ | ⟨ha, hx⟩⟩ := hu
    · omega
    · exact hx.asyncErased ha hpos hs
  · rw [if_neg hmask] at hu ⊢
    obtain ⟨e, x, rfl, ⟨he, rfl, rfl⟩ | ⟨he, hx⟩⟩ := hu
    · exact ⟨by simpa using not_refuses he, e, [], rfl, .inl he⟩
    · exact hx.syncErased he hpos hs

/-- An erase that timed out, and a HELLO after it. -/
theorem flashErase_honest_timeout : Honest 0 4096 (helloTrace (-10)) 4 :=
  (flashErase_honest_iff 0 4096 _ 4 (run_helloTrace (by decide))).2 (by
    apply steadfast_of_not_refuses
    intro e he
    simp only [helloTrace, List.mem_cons, List.not_mem_nil, or_false] at he
    rcases he with rfl | rfl | rfl | rfl | rfl
    · exact id
    · exact not_refuses_of_ne (by decide)
    · exact fun hr => hr.2.2 (.inl rfl)
    · exact id
    · exact not_refuses_of_ne (by decide))

end FrameworkHacks.ECTool
