import Mathlib.Data.List.Induction
import FrameworkHacks.Library.History
import FrameworkHacks.Transport.Libraries

/-!
# The order of a handshake

Which port accesses the two libraries make, and when, over any number of `SendCommand` calls and
whatever is read from the ports. `Allowed` says what an access needs of the accesses made before it
in the same call. `sendCommand_allowed` finds every access of a call allowed, from three facts about
the library's `ECTransfer`. `Safe` is the same read off the history of a session.
-/

namespace FrameworkHacks.Transport

open Effects

/-! ### What an access needs -/

/-- A read of the status register that gave `v`. -/
def statusRead (v : UInt8) : Event Io := ⟨.ioRead8 ecLpcAddrHostCmd, v⟩

/-- A read of the result register that gave `v`. -/
def resultRead (v : UInt8) : Event Io := ⟨.ioRead8 ecLpcAddrHostData, v⟩

/-- The write that starts a command. -/
def doorbell : Event Io := ⟨.ioWrite8 ecLpcAddrHostCmd ecCommandProtocol3, ()⟩

/-- Both busy bits are clear. -/
def Clear (status : UInt8) : Prop := status &&& ecLpcStatusBusyMask = 0

/-- The latest status read had both busy bits clear. -/
def LatestClear (pre : Trace Io) : Prop :=
  ∃ a v b, pre = a ++ statusRead v :: b ∧ Clear v ∧ ∀ e ∈ b, e.op ≠ .ioRead8 ecLpcAddrHostCmd

/-- Since the doorbell was rung, a status read had the busy bits clear, and after it the result
register read 0. -/
def Accepted (pre : Trace Io) : Prop :=
  ∃ a bell b v c d, pre = a ++ bell :: (b ++ statusRead v :: (c ++ resultRead 0 :: d)) ∧
    isDoorbell bell = true ∧ Clear v

theorem LatestClear.append {pre w : Trace Io} (h : LatestClear pre)
    (hw : ∀ e ∈ w, e.op ≠ .ioRead8 ecLpcAddrHostCmd) : LatestClear (pre ++ w) := by
  obtain ⟨a, v, b, rfl, hv, hb⟩ := h
  refine ⟨a, v, b ++ w, by simp, hv, fun e he => ?_⟩
  rcases List.mem_append.1 he with he | he
  · exact hb e he
  · exact hw e he

theorem Accepted.append {pre : Trace Io} (h : Accepted pre) (w : Trace Io) : Accepted (pre ++ w) := by
  obtain ⟨a, bell, b, v, c, d, rfl, hbell, hv⟩ := h
  exact ⟨a, bell, b, v, c, d ++ w, by simp, hbell, hv⟩

theorem not_status {e : Event Io} (h : isWaiting e = false) : e.op ≠ .ioRead8 ecLpcAddrHostCmd := by
  intro hop
  simp [isWaiting, hop] at h

/-- The arguments of `SendCommand`, and what its locals `u` and `r` hold when it is called. -/
structure Call where
  u : Mem
  r : Mem
  command : UInt64
  version : UInt64
  outdata : Mem
  outsize : UInt64
  indata : Mem
  insize : UInt64

/-- `SendCommand` over a library's `ECTransfer`. -/
def Call.send (xfer : EcTransfer) (c : Call) : Prog Io (Int × Mem) :=
  ecSendCommandWith xfer c.u c.r c.command c.version c.outdata c.outsize c.indata c.insize

/-- The calls of the two libraries. -/
def Call.sendMec (c : Call) : Prog Io (Int × Mem) :=
  Mec.ecSendCommandMecLpc c.u c.r c.command c.version c.outdata c.outsize c.indata c.insize

def Call.sendAzalea (c : Call) : Prog Io (Int × Mem) :=
  Azalea.ecSendCommand c.u c.r c.command c.version c.outdata c.outsize c.indata c.insize

/-- All bytes of the call's packet have been transferred: whatever the window held, the accesses
`pre` have put the packet there, and nothing after it. -/
def Loaded {D : Type} (h : Handler Io D) (view : D → Link Unit) (c : Call) (pre : Trace Io) : Prop :=
  ∀ d : D, (view (Prog.replay h d pre)).window =
    (view d).window.write (requestPacket c.command c.version c.outdata c.outsize.toNat)
      (c.outsize.toNat + 8)

/-- The access `e` is one the call `c` may make after `pre`. -/
structure Allowed {D : Type} (h : Handler Io D) (view : D → Link Unit) (c : Call) (pre : Trace Io)
    (e : Event Io) : Prop where
  clear : isWaiting e = false → LatestClear pre
  bell : isDoorbell e = true → pre.countP isDoorbell = 0 ∧ Loaded h view c pre
  answer : isResponseRead e = true → Accepted pre

theorem Allowed.waiting {D : Type} {h : Handler Io D} {view : D → Link Unit} {c : Call} {pre : Trace Io}
    {e : Event Io} (he : isWaiting e = true) : Allowed h view c pre e := by
  obtain ⟨-, hbell, hread⟩ := isWaiting_not he
  exact ⟨by simp [he], by simp [hbell], by simp [hread]⟩

theorem Allowed.transfer {D : Type} {h : Handler Io D} {view : D → Link Unit} {c : Call}
    {pre w : Trace Io} {e : Event Io} (hclear : LatestClear pre) (hw : ∀ e ∈ w, isTransfer e = true)
    (he : isTransfer e = true) (hread : isResponseRead e = true → Accepted (pre ++ w)) :
    Allowed h view c (pre ++ w) e where
  clear _ := hclear.append fun e he => not_status (isTransfer_not (hw e he)).1
  bell hbell := by simp [(isTransfer_not he).2] at hbell
  answer := hread

/-! ### The ready-wait -/

/-- What a ready-wait has done when it returned `rv`: if 0, the last thing was a status read with the
busy bits clear. -/
def Waited (rv : Int) (w : Trace Io) : Prop :=
  (∀ e ∈ w, isWaiting e = true) ∧ (rv = 0 → ∃ b v, w = b ++ [statusRead v] ∧ Clear v)

theorem Waited.latestClear {w : Trace Io} (h : Waited 0 w) (pre : Trace Io) : LatestClear (pre ++ w) := by
  obtain ⟨b, v, rfl, hv⟩ := h.2 rfl
  exact ⟨pre ++ b, v, [], by simp, hv, by simp⟩

theorem along_addInt {ok : Trace Io → Event Io → Prop} (a b : Int) (pre : Trace Io) :
    Prog.Along (fun _ => True) (fun _ => True) ok (fun _ t => t = pre) (addInt a b) pre := by
  unfold addInt
  split
  · rfl
  · trivial

theorem along_wait {ok : Trace Io → Event Io → Prop} (hok : ∀ pre e, isWaiting e = true → ok pre e)
    (timeoutUsec : Int) (pre : Trace Io) :
    Prog.Along (fun _ => True) (fun _ => True) ok (fun rv t => ∃ w, t = pre ++ w ∧ Waited rv w)
      (ecWaitForReady ecLpcAddrHostCmd timeoutUsec) pre := by
  unfold ecWaitForReady
  apply Prog.Along.loop (I := fun _ t => ∃ w, t = pre ++ w ∧ ∀ e ∈ w, isWaiting e = true) trivial
  · rintro ⟨i, delay⟩ t ⟨w, rfl, hw⟩
    rw [waitRound]
    simp only []
    by_cases htime : i < timeoutUsec
    · rw [if_pos htime]
      refine Prog.Along.perform_bind fun _ => ⟨hok _ _ rfl, fun _ => ?_⟩
      refine Prog.Along.perform_bind fun v => ⟨hok _ _ (by simp [isWaiting]), fun _ => ?_⟩
      have hmore : ∀ e ∈ w ++ [⟨.stall (min delay (timeoutUsec - i)).toNat, ()⟩, statusRead v],
          isWaiting e = true := by
        intro e he
        simp only [List.mem_append, List.mem_cons, List.not_mem_nil, or_false] at he
        rcases he with he | rfl | rfl
        · exact hw e he
        · rfl
        · rfl
      by_cases hclear : v &&& ecLpcStatusBusyMask = 0
      · rw [if_pos hclear]
        refine ⟨_, by simp [statusRead], hmore, fun _ => ?_⟩
        exact ⟨w ++ [⟨.stall (min delay (timeoutUsec - i)).toNat, ()⟩], v, by simp, hclear⟩
      · rw [if_neg hclear]
        apply (along_addInt _ _ _).bind
        rintro sum t rfl
        exact ⟨_, by simp [statusRead], hmore⟩
    · rw [if_neg htime]
      exact ⟨w, rfl, hw, by simp⟩
  · exact ⟨[], by simp, by simp⟩

/-! ### A call -/

/-- What the order of a handshake needs to know of a library's `ECTransfer`. -/
structure Transfers (xfer : EcTransfer) : Prop where
  write : ∀ data n, Prog.Holds (fun _ => True) (fun _ => True) (isPacketWrite · = true) (fun _ => True)
    (xfer .write 0 data 0 n)
  read : ∀ a data off n, Prog.Holds (fun _ => True) (fun _ => True) (isTransfer · = true)
    (fun _ => True) (xfer .read a data off n)

theorem holds_checksum {P : Event Io → Prop} (data : Buf) (size : Nat) :
    Prog.Holds (fun _ => True) (fun _ => True) P (fun _ => True) (ecChecksumBuffer data size) := by
  apply Prog.Holds.forRange (I := fun _ _ => True)
  · intro i sum _ _ _
    unfold Buf.load
    split
    · trivial
    · trivial
  · trivial

theorem Transfers.holds_receive {xfer : EcTransfer} (hx : Transfers xfer) (r indata : Mem)
    (insize : UInt64) :
    Prog.Holds (fun _ => True) (fun _ => True) (isTransfer · = true) (fun _ => True)
      (receiveResponse xfer r indata insize) := by
  unfold receiveResponse
  apply (hx.read _ _ _ _).bind
  intro r' _
  simp only []
  split_ifs
  · trivial
  · trivial
  · trivial
  · apply (hx.read _ _ _ _).bind
    intro r'' _
    apply (holds_checksum r'' _).bind
    intro sum _
    split
    · trivial
    · trivial
  · trivial

section Call

variable {D : Type} {h : Handler Io D} {xfer : EcTransfer} {view : D → Link Unit}

theorem Carries.replay_waiting (hc : Carries idleEc h xfer view) {w : Trace Io}
    (hw : ∀ e ∈ w, isWaiting e = true) (d : D) : (view (Prog.replay h d w)).window = (view d).window := by
  induction w generalizing d with
  | nil => rfl
  | cons e w ih =>
    obtain ⟨op, x⟩ := e
    have hrest : ∀ e ∈ w, isWaiting e = true := fun e he => hw e (by simp [he])
    have hop := hw ⟨op, x⟩ (by simp)
    cases op with
    | stall n =>
      rw [Prog.replay_cons (hc.stall n d)]
      exact ih hrest d
    | ioRead8 port =>
      obtain rfl : port = ecLpcAddrHostCmd := by simpa [isWaiting] using hop
      obtain ⟨d', hd', hview⟩ := hc.status d
      rw [Prog.replay_cons hd', ih hrest, hview]
      rfl
    | ioRead16 port => cases hop
    | ioWrite8 port v => cases hop
    | ioWrite16 port v => cases hop

theorem Carries.loaded (hc : Carries idleEc h xfer view) (hx : Transfers xfer) (c : Call)
    (hn : c.outsize.toNat ≤ gEcMaxRequest) {b : Mem}
    (hb : ∀ i < c.outsize.toNat + 8, b i = requestPacket c.command c.version c.outdata c.outsize.toNat i)
    {w₁ w : Trace Io} (hw₁ : ∀ e ∈ w₁, isWaiting e = true) {data' : Buf}
    (hw : Run (xfer .write 0 ⟨b, ecLpcHostPacketSize⟩ 0 (UInt16.ofNat (c.outsize.toNat + 8))) w
      (.done data')) : Loaded h view c (w₁ ++ w) := by
  intro d
  have hsize : c.outsize.toNat + 8 ≤ 256 := by
    rw [gEcMaxRequest_eq] at hn
    omega
  obtain ⟨_, d', hexec, hview⟩ := hc.write ⟨b, ecLpcHostPacketSize⟩ (c.outsize.toNat + 8)
    (Prog.replay h d w₁) hsize hsize
  have hd' := (Prog.exec_replay (fun _ => isPacketWrite_ans) (hx.write _ _) hexec hw).2
  rw [Prog.replay_append, hd', hview, ← hc.replay_waiting hw₁ d]
  exact Window.write_congr _ hb

/-- **Every access of a call is allowed.** -/
theorem Carries.sendCommand_allowed (hc : Carries idleEc h xfer view) (hx : Transfers xfer) (c : Call) :
    Prog.Along (fun _ => True) (fun _ => True) (Allowed h view c) (fun _ _ => True) (c.send xfer) [] := by
  unfold Call.send ecSendCommandWith
  split
  · trivial
  by_cases hbig : c.outsize.toNat > gEcMaxRequest
  · rw [fillRequest_fault c.u c.command c.version c.outsize c.outdata hbig]
    trivial
  have hn : c.outsize.toNat ≤ gEcMaxRequest := by omega
  obtain ⟨b, hb, hbytes⟩ := fillRequest_eq c.u c.command c.version c.outsize c.outdata hn
  rw [hb, pure_bind]
  apply (along_wait (fun _ _ => Allowed.waiting) 1000000 []).bind
  rintro rv w₁ ⟨_, rfl, hw₁⟩
  by_cases hrv : rv = 0
  swap
  · rw [if_pos hrv]
    trivial
  subst hrv
  rw [if_neg (by simp)]
  have hready := hw₁.latestClear []
  -- the packet
  rw [packetLength c.outsize hn]
  refine ((hx.write _ _).along w₁ fun w e hw he => ?_).bind ?_
  · exact .transfer hready (fun e he => isTransfer_of_write (hw e he)) (isTransfer_of_write he)
      (by simp [isResponseRead_of_write he])
  rintro data' _ ⟨w, rfl, hw, hpacket, -⟩
  have hloaded := hc.loaded hx c hn hbytes hw₁.1 hw
  -- the doorbell
  refine Prog.Along.perform_bind fun _ => ⟨⟨fun _ => ?_, fun _ => ⟨?_, hloaded⟩, by simp [isResponseRead]⟩,
    fun _ => ?_⟩
  · exact hready.append fun e he => not_status (isTransfer_not (isTransfer_of_write (hpacket e he))).1
  · rw [List.countP_eq_zero]
    intro e he
    rcases List.mem_append.1 he with he | he
    · simp [(isWaiting_not (hw₁.1 e he)).2.1]
    · simp [(isTransfer_not (isTransfer_of_write (hpacket e he))).2]
  apply (along_wait (fun _ _ => Allowed.waiting) 1000000 _).bind
  rintro rv _ ⟨w₂, rfl, hw₂⟩
  by_cases hrv : rv = 0
  swap
  · rw [if_pos hrv]
    trivial
  subst hrv
  rw [if_neg (by simp)]
  have hready₂ := hw₂.latestClear (w₁ ++ w ++ [doorbell])
  -- the result register
  refine Prog.Along.perform_bind fun i => ⟨⟨fun _ => hready₂, by simp [isDoorbell],
    by simp [isResponseRead, ecLpcAddrHostData]⟩, fun _ => ?_⟩
  by_cases hi : i = 0
  swap
  · rw [if_pos hi]
    trivial
  subst hi
  rw [if_neg (by simp)]
  obtain ⟨b₂, v, rfl, hv⟩ := hw₂.2 rfl
  have haccepted : Accepted (w₁ ++ w ++ [doorbell] ++ (b₂ ++ [statusRead v]) ++ [resultRead 0]) :=
    ⟨w₁ ++ w, doorbell, b₂, v, [], [], by simp, by simp [isDoorbell, doorbell], hv⟩
  refine ((hx.holds_receive c.r c.indata c.insize).along _ fun w e hw he => ?_).post fun _ _ _ => trivial
  refine .transfer ?_ hw he fun _ => haccepted.append w
  exact hready₂.append (by simp [ecLpcAddrHostCmd, ecLpcAddrHostData])

end Call

theorem Mec.transfers : Transfers Mec.ecTransfer where
  write data n :=
    ((holds_ecTransfer .write 0 data 0 n).weaken fun _ _ => trivial).post fun _ _ => trivial
  read a data off n :=
    ((holds_ecTransfer .read a data off n).weaken fun _ _ => trivial).post fun _ _ => trivial

theorem Azalea.transfers : Transfers Azalea.ecTransfer where
  write data n :=
    ((holds_ecTransfer .write 0 data 0 n).weaken fun _ _ => trivial).post fun _ _ => trivial
  read a data off n :=
    ((holds_ecTransfer .read a data off n).weaken fun _ _ => trivial).post fun _ _ => trivial

/-! ### Calls that write nothing -/

/-- The first ready-wait of the call with the accesses `t` gave up. -/
def FirstWaitTimesOut (t : Trace Io) : Prop :=
  ∃ w rv, w <+: t ∧ Run (ecWaitForReady ecLpcAddrHostCmd 1000000) w (.done rv) ∧ rv ≠ 0

theorem wait_waiting {w : Trace Io} {o : Outcome Int}
    (h : Run (ecWaitForReady ecLpcAddrHostCmd 1000000) w o) : ∀ e ∈ w, isWaiting e = true := by
  have halong : Prog.Along _ _ (fun _ e => isWaiting e = true) _ _ [] :=
    along_wait (fun _ _ h => h) 1000000 []
  intro e he
  obtain ⟨u, v, rfl⟩ := List.append_of_mem he
  exact (halong.run h fun _ _ => trivial).1 u e v rfl

theorem Call.no_access_of_rejected {xfer : EcTransfer} {c : Call} {t : Trace Io}
    {o : Outcome (Int × Mem)} (h : Run (c.send xfer) t o) (hbig : c.outsize.toNat > gEcMaxRequest) :
    t = [] := by
  unfold Call.send ecSendCommandWith at h
  split at h
  · exact h.pure_nil
  · rw [fillRequest_fault c.u c.command c.version c.outsize c.outdata hbig] at h
    exact h.halt_nil

theorem Call.waiting_of_timeout {xfer : EcTransfer} {c : Call} {t : Trace Io}
    {o : Outcome (Int × Mem)} (h : Run (c.send xfer) t o) (htimeout : FirstWaitTimesOut t) :
    ∀ e ∈ t, isWaiting e = true := by
  by_cases hbig : c.outsize.toNat > gEcMaxRequest
  · simp [Call.no_access_of_rejected h hbig]
  obtain ⟨b, hb, -⟩ := fillRequest_eq c.u c.command c.version c.outsize c.outdata (by omega)
  unfold Call.send ecSendCommandWith at h
  split at h
  · simp [h.pure_nil]
  rw [hb, pure_bind] at h
  obtain ⟨w, rv, hpre, hw, hrv⟩ := htimeout
  rcases h.bind_cases with ⟨u, v, a, rfl, hu, hv⟩ | ⟨o', ht, -, -⟩
  · -- the wait ends where the answers say, so `w` is `u`
    obtain ⟨rfl, rfl⟩ := hw.done_unique hu hpre (List.prefix_append u v)
    rw [if_pos hrv] at hv
    rw [hv.pure_nil, List.append_nil]
    exact wait_waiting hw
  · exact wait_waiting ht

/-! ### Sessions -/

/-- One call after the other: each but the last has returned. -/
inductive Session (send : Call → Prog Io (Int × Mem)) : List (Call × Trace Io) → Prop
  | nil : Session send []
  | last {c : Call} {t : Trace Io} {o : Outcome (Int × Mem)} (h : Run (send c) t o) :
      Session send [(c, t)]
  | cons {c : Call} {t : Trace Io} {res : Int × Mem} {s : List (Call × Trace Io)}
      (h : Run (send c) t (.done res)) (hs : Session send s) : Session send ((c, t) :: s)

theorem Session.run {send : Call → Prog Io (Int × Mem)} {s : List (Call × Trace Io)}
    (hs : Session send s) {x : Call × Trace Io} (hx : x ∈ s) : ∃ o, Run (send x.1) x.2 o := by
  induction hs with
  | nil => cases hx
  | last h =>
    rw [List.mem_singleton.1 hx]
    exact ⟨_, h⟩
  | cons h _ ih =>
    rcases List.mem_cons.1 hx with rfl | hx
    · exact ⟨_, h⟩
    · exact ih hx

/-- A line of a session's history: a call begins, or the call makes an access. -/
inductive Entry
  | begins (c : Call)
  | access (e : Event Io)

/-- What happens in a session, in order. -/
def history (s : List (Call × Trace Io)) : List Entry :=
  s.flatMap fun x => .begins x.1 :: x.2.map .access

/-- An access of the history belongs to a call, and the accesses of that call before it come last. -/
theorem history_split {s : List (Call × Trace Io)} {pre post : List Entry} {e : Event Io}
    (h : history s = pre ++ .access e :: post) :
    ∃ x ∈ s, ∃ before u v, x.2 = u ++ e :: v ∧ pre = before ++ .begins x.1 :: u.map .access := by
  induction s generalizing pre with
  | nil => simp [history] at h
  | cons x s ih =>
    have hcons : history (x :: s) = (.begins x.1 :: x.2.map .access) ++ history s := by simp [history]
    rw [hcons, List.append_eq_append_iff] at h
    -- the access is made in a later call, or in this one
    rcases h with ⟨pre', rfl, h⟩ | ⟨rest, h, hrest⟩
    · obtain ⟨y, hy, before, u, v, hsplit, rfl⟩ := ih h
      exact ⟨y, by simp [hy], (.begins x.1 :: x.2.map .access) ++ before, u, v, hsplit, by simp⟩
    · cases rest with
      | nil =>
        obtain ⟨y, -, before, u, v, -, hpre⟩ := ih (show history s = [] ++ .access e :: post from hrest.symm)
        simp at hpre
      | cons b rest =>
        obtain ⟨rfl, -⟩ := List.cons.inj hrest
        cases pre with
        | nil => cases h
        | cons b pre =>
          obtain ⟨rfl, hmap⟩ := List.cons.inj h
          obtain ⟨u, v, hsplit, rfl, hv⟩ := List.map_eq_append_iff.1 hmap
          obtain ⟨e', v, rfl, he, -⟩ := List.map_eq_cons_iff.1 hv
          cases he
          exact ⟨x, by simp, [], u, v, hsplit, rfl⟩

/-- The accesses of a session keep to the handshake. -/
structure Safe {D : Type} (h : Handler Io D) (view : D → Link Unit) (s : List (Call × Trace Io)) :
    Prop where
  /-- Any access but a read of the status register comes after one in the same call whose value, the
  latest one read, had both busy bits clear. -/
  guarded : ∀ pre e post, history s = pre ++ .access e :: post → isWaiting e = false →
    ∃ (a : List Entry) (v : UInt8) (b : Trace Io),
      pre = a ++ .access (statusRead v) :: b.map .access ∧ Clear v ∧ ∀ e ∈ b,
        e.op ≠ .ioRead8 ecLpcAddrHostCmd
  /-- A call rings the doorbell at most once. -/
  once : ∀ x ∈ s, x.2.countP isDoorbell ≤ 1
  /-- When it does, its packet has been transferred. -/
  loaded : ∀ x ∈ s, ∀ pre e post, x.2 = pre ++ e :: post → isDoorbell e = true → Loaded h view x.1 pre
  /-- No response byte is read before the command was done and its result 0. -/
  answered : ∀ x ∈ s, ∀ pre e post, x.2 = pre ++ e :: post → isResponseRead e = true → Accepted pre
  /-- A call that is rejected for its size or gives up waiting at first writes to no port. -/
  quiet : ∀ x ∈ s, x.1.outsize.toNat > gEcMaxRequest ∨ FirstWaitTimesOut x.2 →
    ∀ e ∈ x.2, isPortWrite e = false

theorem count_le_one {t : Trace Io}
    (h : ∀ u e v, t = u ++ e :: v → isDoorbell e = true → u.countP isDoorbell = 0) :
    t.countP isDoorbell ≤ 1 := by
  induction t using List.reverseRecOn with
  | nil => simp
  | append_singleton t e ih =>
    rw [List.countP_append]
    have ht := ih fun u e' v huv => h u e' (v ++ [e]) (by simp [huv])
    by_cases he : isDoorbell e = true
    · rw [h t e [] rfl he]
      simp [he]
    · simpa [he] using ht

theorem Carries.safe {D : Type} {h : Handler Io D} {xfer : EcTransfer} {view : D → Link Unit}
    (hc : Carries idleEc h xfer view) (hx : Transfers xfer) {s : List (Call × Trace Io)}
    (hs : Session (Call.send xfer) s) : Safe h view s := by
  have hallowed : ∀ x ∈ s, ∀ u e v, x.2 = u ++ e :: v → Allowed h view x.1 u e := by
    intro x hx' u e v huv
    obtain ⟨o, hrun⟩ := hs.run hx'
    exact ((hc.sendCommand_allowed hx x.1).run hrun fun _ _ => trivial).1 u e v huv
  refine ⟨?_, ?_, ?_, ?_, ?_⟩
  · intro pre e post hsplit he
    obtain ⟨x, hx', before, u, v, huv, rfl⟩ := history_split hsplit
    obtain ⟨a, status, b, rfl, hstatus, hb⟩ := (hallowed x hx' u e v huv).clear he
    exact ⟨before ++ .begins x.1 :: a.map .access, status, b, by simp, hstatus, hb⟩
  · intro x hx'
    exact count_le_one fun u e v huv he => ((hallowed x hx' u e v huv).bell he).1
  · intro x hx' u e v huv he
    exact ((hallowed x hx' u e v huv).bell he).2
  · intro x hx' u e v huv he
    exact (hallowed x hx' u e v huv).answer he
  · intro x hx' hquiet e he
    obtain ⟨o, hrun⟩ := hs.run hx'
    rcases hquiet with hbig | htimeout
    · rw [Call.no_access_of_rejected hrun hbig] at he
      cases he
    · exact (isWaiting_not (Call.waiting_of_timeout hrun htimeout e he)).1

/-- **Every session of either library keeps to the handshake.** -/
theorem sessions_safe (s : List (Call × Trace Io)) :
    (Session Call.sendMec s → Safe (emi idleEc) Mec.link s) ∧
      (Session Call.sendAzalea s → Safe (npcx idleEc) Azalea.link s) :=
  ⟨(Mec.carries idleEc).safe Mec.transfers, (Azalea.carries idleEc).safe Azalea.transfers⟩

/-- A call with a payload of `n` zeros. -/
def Call.zeros (n : UInt64) : Call := ⟨fun _ => 0, fun _ => 0, 1, 0, fun _ => 0, n, fun _ => 0, 4⟩

theorem Call.send_zeros_249 (xfer : EcTransfer) :
    Run ((Call.zeros 249).send xfer) [] (.done (-EcStatus.requestTruncated.code, fun _ => 0)) := by
  rw [send, ecSendCommandWith, if_pos (by decide)]
  exact .ret _

/-- A call that is rejected, then one that goes through all its steps. -/
theorem sessions_safe_zeros :
    Safe (emi idleEc) Mec.link [(Call.zeros 249, []),
      (Call.zeros 4, (Call.zeros 4).sendMec.transcript zeroPorts)] ∧
    Safe (npcx idleEc) Azalea.link [(Call.zeros 249, []),
      (Call.zeros 4, (Call.zeros 4).sendAzalea.transcript zeroPorts)] :=
  ⟨(sessions_safe _).1 (.cons (Call.send_zeros_249 _)
      (.last (Prog.run_transcript zeroPorts (Call.zeros 4).sendMec))),
    (sessions_safe _).2 (.cons (Call.send_zeros_249 _)
      (.last (Prog.run_transcript zeroPorts (Call.zeros 4).sendAzalea)))⟩

end FrameworkHacks.Transport
