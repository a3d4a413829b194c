import FrameworkHacks.ECTool.FlashCommands

/-!
# What a read that succeeds means

`flash_read` asks for a chunk, and copies as many bytes as it asked for out of its bounce buffer,
however many the EC stored there. `ReadChunks` is what a run that returns 0 looks like.
`flashRead_delivered_iff` says when the caller's buffer holds bytes of the EC only.
-/

namespace FrameworkHacks.ECTool

open Effects

/-! ### Requests and replies -/

/-- The size of the chunk at `i`. -/
def chunkSize (size : Int) (i : Nat) : Nat := toUint32 (min (size - i) gEcMaxResponse)

def readRequest (offset size : Int) (i : Nat) : HostCommand :=
  ⟨ecCmdFlashRead, 0, offsetSize (toUint32 (offset + i)) (chunkSize size i), chunkSize size i⟩

/-- What `SendCommand` promises of a reply: an error and no data, or the number of bytes stored, which
is at most what was asked for. -/
def InContract (e : Event Services) : Prop :=
  match e with
  | ⟨.sendCommand c, r⟩ => r.rv < 0 ∧ r.data = [] ∨ r.rv = r.data.length ∧ r.data.length ≤ c.insize
  | _ => True

/-- In the events `t` the EC has returned the byte `b` for the flash address `a`. -/
def Returned (t : Trace Services) (a : Nat) (b : UInt8) : Prop :=
  ∃ c r j, replied c r ∈ t ∧ c.command = ecCmdFlashRead ∧
    ((Mem.ofList c.outdata).le32 0 + j) % 4294967296 = a ∧ r.data[j]? = some b

/-- Every reply carries as many bytes as were asked for. -/
def Complete (t : Trace Services) : Prop := ∀ c r, replied c r ∈ t → r.rv = c.insize

/-- Every byte of the caller's buffer is one the EC has returned for its address. -/
def Delivered (offset size : Int) (start : Nat) (t : Trace Services) (buffer : Buf) : Prop :=
  ∀ i : Nat, i < size → Returned t (toUint32 (offset + i)) (buffer.bytes (start + i))

/-! ### Runs -/

/-- A read from `i` on that returns 0: the chunks asked for, and what the caller's buffer becomes. -/
inductive ReadChunks (offset size : Int) (start : Nat) : Nat → Mem → Buf → Trace Services → Buf → Prop
  | done {i : Nat} {buf : Mem} {buffer : Buf} (h : size ≤ i) :
      ReadChunks offset size start i buf buffer [] buffer
  | chunk {i : Nat} {buf : Mem} {buffer buffer' : Buf} {r : Reply} {t : Trace Services}
      (hlt : i < size) (hrv : 0 ≤ r.rv)
      (h : ReadChunks offset size start (i + gEcMaxResponse) (r.into buf (chunkSize size i))
        ⟨buffer.bytes.copy (start + i) (r.into buf (chunkSize size i)) (chunkSize size i), buffer.size⟩
        t buffer') :
      ReadChunks offset size start i buf buffer (replied (readRequest offset size i) r :: t) buffer'

theorem flashRead_chunks {offset size : Int} {start fuel i : Nat} {buf : Mem} {buffer buffer' : Buf}
    {t : Trace Services}
    (h : Run (Prog.loop (flashReadRound offset size start) fuel ((i : Int), buf, buffer)) t
      (.done (0, buffer'))) : ReadChunks offset size start i buf buffer t buffer' := by
  induction fuel generalizing i buf buffer t with
  | zero => cases h
  | succ fuel ih =>
    rw [Prog.loop_succ, flashReadRound] at h
    by_cases hlt : (i : Int) < size
    · rw [if_pos hlt] at h
      obtain ⟨u, v, a, rfl, hu, hv⟩ := h.bind_done
      obtain ⟨w, x, pOffset, rfl, hw, hx⟩ := hu.bind_done
      obtain ⟨rfl, rfl⟩ := run_addInt hw
      obtain ⟨r, y, rfl, hy⟩ := hx.perform_bind_done
      split at hy
      · rename_i hneg
        obtain ⟨-, rfl⟩ := hy.pure_done
        have hres := congrArg Prod.fst hv.pure_done.2
        simp only at hres
        omega
      · obtain ⟨y₁, y₂, b, rfl, hy₁, hy₂⟩ := hy.bind_done
        obtain ⟨rfl, -, rfl⟩ := Buf.run_copyIn hy₁
        obtain ⟨y₃, y₄, j, rfl, hy₃, hy₄⟩ := hy₂.bind_done
        obtain ⟨rfl, rfl⟩ := run_addInt hy₃
        obtain ⟨rfl, rfl⟩ := hy₄.pure_done
        rw [Int.toNat_natCast, ← Int.natCast_add] at hv
        exact .chunk hlt (by omega) (ih hv)
    · rw [if_neg hlt] at h
      obtain ⟨rfl, hres⟩ := h.pure_done
      cases hres
      exact .done (by omega)

/-! ### Addresses -/

theorem address_add (offset : Int) (i j : Nat) :
    (toUint32 (offset + i) + j) % 4294967296 = toUint32 (offset + (i + j : Nat)) := by
  simp only [toUint32]
  omega

theorem address_inj {offset : Int} {i j : Nat} (hi : i < 2147483648) (hj : j < 2147483648)
    (h : toUint32 (offset + i) = toUint32 (offset + j)) : i = j := by
  simp only [toUint32] at h
  omega

theorem toUint32_lt (a : Int) : toUint32 a < 4294967296 := by
  unfold toUint32
  omega

theorem readRequest_address (offset size : Int) (i : Nat) :
    (Mem.ofList (readRequest offset size i).outdata).le32 0 = toUint32 (offset + i) := by
  have h := (le32_offsetSize [] [] (toUint32_lt (offset + i)) (toUint32_lt (min (size - i) gEcMaxResponse))).1
  rwa [List.append_nil] at h

theorem chunkSize_eq {size : Int} {i : Nat} (hlt : i < size) :
    (chunkSize size i : Int) = min (size - i) 248 := by
  simp only [chunkSize, toUint32, gEcMaxResponse_eq]
  omega

theorem Returned.cons {e : Event Services} {t : Trace Services} {a : Nat} {b : UInt8}
    (h : Returned t a b) : Returned (e :: t) a b := by
  obtain ⟨c, r, j, hmem, h⟩ := h
  exact ⟨c, r, j, List.mem_cons_of_mem _ hmem, h⟩

/-! ### Complete replies -/

theorem into_of_complete {r : Reply} {buf : Mem} {n j : Nat} (hlen : r.data.length = n) (hj : j < n) :
    r.data[j]? = some (r.into buf n j) := by
  have htake : r.data.take n = r.data := List.take_of_length_le (by omega)
  rw [Reply.into, htake, Mem.overlay_lt _ (by omega), Mem.ofList, List.getD_eq_getElem?_getD,
    List.getElem?_eq_getElem (by omega)]
  rfl

theorem ReadChunks.delivered {offset size : Int} {start i : Nat} {buf : Mem} {buffer buffer' : Buf}
    {t : Trace Services} (h : ReadChunks offset size start i buf buffer t buffer')
    (hcontract : ∀ e ∈ t, InContract e) (hcomplete : Complete t) :
    (∀ x < start + i, buffer'.bytes x = buffer.bytes x) ∧
      ∀ m : Nat, i ≤ m → m < size → Returned t (toUint32 (offset + m)) (buffer'.bytes (start + m)) := by
  induction h with
  | done h => exact ⟨fun _ _ => rfl, fun m him hm => by omega⟩
  | @chunk i buf buffer buffer' r t hlt hrv _ ih =>
    obtain ⟨hkeep, hrest⟩ := ih (fun e he => hcontract e (by simp [he]))
      fun c r' hr' => hcomplete c r' (by simp [hr'])
    simp only at hkeep
    refine ⟨fun x hx => ?_, fun m him hm => ?_⟩
    · rw [hkeep x (by omega), Mem.copy_out _ _ (.inl hx)]
    · by_cases hnext : i + gEcMaxResponse ≤ m
      · exact (hrest m hnext hm).cons
      · have hlen : r.data.length = chunkSize size i := by
          have hc := hcomplete (readRequest offset size i) r (by simp)
          have hr := hcontract _ (List.mem_cons_self ..)
          simp only [InContract, replied, readRequest] at hr hc
          omega
        have hsize := chunkSize_eq hlt
        rw [gEcMaxResponse_eq] at hnext
        obtain ⟨j, rfl⟩ : ∃ j, m = i + j := ⟨m - i, by omega⟩
        have hj : j < chunkSize size i := by omega
        refine ⟨_, r, j, List.mem_cons_self .., rfl, ?_, ?_⟩
        · rw [readRequest_address, address_add]
        · rw [hkeep _ (by simp only [gEcMaxResponse_eq]; omega)]
          rw [← Nat.add_assoc, Mem.copy_in _ _ hj]
          exact into_of_complete hlen hj

theorem ReadChunks.request {offset size : Int} {start i : Nat} {buf : Mem} {buffer buffer' : Buf}
    {t : Trace Services} (h : ReadChunks offset size start i buf buffer t buffer') {c : HostCommand}
    {r : Reply} (hr : replied c r ∈ t) :
    ∃ k : Nat, c = readRequest offset size k ∧ i ≤ k ∧ k < size ∧ 0 ≤ r.rv := by
  induction h with
  | done h => cases hr
  | @chunk i _ _ _ r' _ hlt hrv _ ih =>
    rcases List.mem_cons.1 hr with heq | hr
    · cases heq
      exact ⟨i, rfl, Nat.le_refl i, hlt, hrv⟩
    · obtain ⟨k, rfl, hik, hk, hpos⟩ := ih hr
      exact ⟨k, rfl, by omega, hk, hpos⟩

theorem position_eq {offset size : Int} {k m j : Nat} {r : Reply} (hsize : size < 2147483648)
    (hk : k < size) (hm : m < size) (hpos : 0 ≤ r.rv)
    (hcontract : InContract (replied (readRequest offset size k) r))
    (haddress : ((Mem.ofList (readRequest offset size k).outdata).le32 0 + j) % 4294967296 =
      toUint32 (offset + m)) {b : UInt8} (hj : r.data[j]? = some b) : m = k + j ∧ j < 248 := by
  rw [readRequest_address, address_add] at haddress
  have hlen : j < r.data.length := (List.getElem?_eq_some_iff.1 hj).1
  have hchunk := chunkSize_eq hk
  simp only [InContract, replied, readRequest] at hcontract
  have hmk : k + j = m := address_inj (by omega) (by omega) haddress
  exact ⟨hmk.symm, by omega⟩

/-- A byte of a chunk comes from the reply about it, one of a later chunk from a later reply. -/
theorem ReadChunks.returned_cons {offset size : Int} {start i m : Nat} {buf : Mem}
    {buffer buffer' : Buf} {t : Trace Services} {r : Reply} {b : UInt8}
    (htail : ReadChunks offset size start (i + gEcMaxResponse) buf buffer t buffer')
    (hsize : size < 2147483648) (hlt : i < size) (hrv : 0 ≤ r.rv)
    (hcontract : ∀ e ∈ replied (readRequest offset size i) r :: t, InContract e) (hm : m < size)
    (hret : Returned (replied (readRequest offset size i) r :: t) (toUint32 (offset + m)) b) :
    (∃ j < 248, m = i + j ∧ r.data[j]? = some b) ∨
      i + 248 ≤ m ∧ Returned t (toUint32 (offset + m)) b := by
  obtain ⟨c, r', j, hmem, hread, haddress, hj⟩ := hret
  rcases List.mem_cons.1 hmem with heq | htmem
  · cases heq
    obtain ⟨rfl, hj248⟩ := position_eq hsize hlt hm hrv (hcontract _ hmem) haddress hj
    exact .inl ⟨j, hj248, rfl, hj⟩
  · obtain ⟨k, rfl, hik, hk, hpos⟩ := htail.request htmem
    obtain ⟨rfl, -⟩ := position_eq hsize hk hm hpos (hcontract _ hmem) haddress hj
    rw [gEcMaxResponse_eq] at hik
    exact .inr ⟨by omega, _, r', j, htmem, hread, haddress, hj⟩

theorem ReadChunks.complete {offset size : Int} {start i : Nat} {buf : Mem} {buffer buffer' : Buf}
    {t : Trace Services} (h : ReadChunks offset size start i buf buffer t buffer')
    (hsize : size < 2147483648) (hcontract : ∀ e ∈ t, InContract e)
    (hret : ∀ m : Nat, i ≤ m → m < size → ∃ b, Returned t (toUint32 (offset + m)) b) : Complete t := by
  induction h with
  | done h => simp [Complete]
  | @chunk i buf buffer buffer' r t hlt hrv htail ih =>
    have hchunk := chunkSize_eq hlt
    have hhead : r.rv = chunkSize size i := by
      have hr := hcontract _ (List.mem_cons_self ..)
      simp only [InContract, replied, readRequest] at hr
      -- a short reply has nothing for the byte it ends at
      by_contra hshort
      obtain ⟨b, hb⟩ := hret (i + r.data.length) (by omega) (by omega)
      rcases htail.returned_cons hsize hlt hrv hcontract (by omega) hb with ⟨j, -, hj, hdata⟩ | ⟨hle, -⟩
      · obtain rfl : j = r.data.length := by omega
        rw [List.getElem?_eq_none (Nat.le_refl _)] at hdata
        cases hdata
      · omega
    have hlater : Complete t := by
      apply ih fun e he => hcontract e (by simp [he])
      intro m him hm
      rw [gEcMaxResponse_eq] at him
      obtain ⟨b, hb⟩ := hret m (by omega) hm
      rcases htail.returned_cons hsize hlt hrv hcontract hm hb with ⟨j, hj, hmj, -⟩ | ⟨-, hret'⟩
      · omega
      · exact ⟨b, hret'⟩
    intro c r' hr'
    rcases List.mem_cons.1 hr' with heq | hr'
    · cases heq
      exact hhead
    · exact hlater c r' hr'

theorem run_readRound {offset size : Int} {start n i : Nat} {buf : Mem} {buffer : Buf} {r : Reply}
    {t : Trace Services} {o : Outcome (Int × Buf)} (hlt : i < size) (hsize : size ≤ 2147483647 - 248)
    (hoffset : 0 ≤ offset ∧ offset + size ≤ 2147483647) (hbuffer : start + size ≤ buffer.size) (hrv : 0 ≤ r.rv)
    (h : Run (Prog.loop (flashReadRound offset size start) n (((i + 248 : Nat) : Int), r.into buf (chunkSize size i),
      ⟨buffer.bytes.copy (start + i) (r.into buf (chunkSize size i)) (chunkSize size i), buffer.size⟩)) t o) :
    Run (Prog.loop (flashReadRound offset size start) (n + 1) ((i : Int), buf, buffer))
      (replied (readRequest offset size i) r :: t) o := by
  have hchunk := chunkSize_eq hlt
  rw [Prog.loop_succ, flashReadRound, if_pos hlt, addInt_of_le (by omega) (by omega)]
  simp only [pure_bind, bind_assoc]
  refine Run.perform_bind ?_
  rw [← chunkSize, if_neg (Int.not_lt.2 hrv), Int.toNat_natCast, Buf.copyIn_of_le _ (by omega), pure_bind,
    addInt_of_le (by omega) (by rw [gEcMaxResponse_eq]; omega), pure_bind, pure_bind, gEcMaxResponse_eq,
    ← Int.natCast_add]
  exact h

theorem run_readDone {offset size : Int} {start n i : Nat} {buf : Mem} {buffer : Buf} (hle : size ≤ i) :
    Run (Prog.loop (flashReadRound offset size start) (n + 1) ((i : Int), buf, buffer)) [] (.done (0, buffer)) := by
  rw [Prog.loop_succ, flashReadRound, if_neg (Int.not_lt.2 hle)]
  exact .ret _

/-- **When a read that returns 0 has delivered the EC's bytes.** -/
theorem flashRead_delivered_iff (offset size : Int) (buffer buffer' : Buf) (start : Nat)
    (t : Trace Services) (hsize : size ≤ 2147483647 - 248) (hcontract : ∀ e ∈ t, InContract e)
    (h : Run (flashRead offset size buffer start) t (.done (0, buffer'))) :
    Delivered offset size start t buffer' ↔ Complete t := by
  have hchunks : ReadChunks offset size start 0 (fun _ => 0) buffer t buffer' := flashRead_chunks h
  constructor
  · intro hdelivered
    exact hchunks.complete (by omega) hcontract fun m _ hm => ⟨_, hdelivered m hm⟩
  · intro hcomplete m hm
    exact (hchunks.delivered hcontract hcomplete).2 m (by omega) hm

/-- The `n` bytes from `i` on that an EC returns whose bytes are the numbers of their addresses. -/
def counted (i n : Nat) : Reply := ⟨n, (List.range n).map fun j => UInt8.ofNat (i + j)⟩

/-- 250 bytes, which are a whole chunk and a tail. -/
theorem flashRead_delivered_ragged :
    ∃ buffer, Run (flashRead 0x1000 250 ⟨fun _ => 0xFF, 250⟩ 0)
        [replied (readRequest 0x1000 250 0) (counted 0 248), replied (readRequest 0x1000 250 248) (counted 248 2)]
        (.done (0, buffer)) ∧
      Delivered 0x1000 250 0
        [replied (readRequest 0x1000 250 0) (counted 0 248), replied (readRequest 0x1000 250 248) (counted 248 2)]
        buffer := by
  have hrun : Run (Prog.loop (flashReadRound 0x1000 250 0) 251 (((0 : Nat) : Int), fun _ => 0, ⟨fun _ => 0xFF, 250⟩))
      [replied (readRequest 0x1000 250 0) (counted 0 248), replied (readRequest 0x1000 250 248) (counted 248 2)] _ :=
    run_readRound (by decide) (by decide) (by decide) (by decide) (by decide)
      (run_readRound (by decide) (by decide) (by decide) (by decide) (by decide) (run_readDone (by decide)))
  refine ⟨_, hrun, (flashRead_delivered_iff 0x1000 250 _ _ 0 _ (by decide) ?_ hrun).2 ?_⟩
  · have hlength (i n : Nat) : (counted i n).data.length = n := by simp [counted]
    rintro e (_ | ⟨_, _ | ⟨_, ⟨⟩⟩⟩)
    · exact .inr ⟨by rw [hlength]; rfl, Nat.le_of_eq (hlength 0 248)⟩
    · exact .inr ⟨by rw [hlength]; rfl, Nat.le_of_eq (hlength 248 2)⟩
  · rintro c r (_ | ⟨_, _ | ⟨_, ⟨⟩⟩⟩)
    · rfl
    · rfl

/-- An EC that answers the read of one byte with none. -/
theorem flashRead_undelivered :
    ¬∀ (offset size : Int) (buffer buffer' : Buf) (start : Nat) (t : Trace Services),
      0 ≤ size → size ≤ 2147483647 - 248 → (∀ e ∈ t, InContract e) →
      Run (flashRead offset size buffer start) t (.done (0, buffer')) →
      Delivered offset size start t buffer' := by
  intro h
  have hrun : Run (Prog.loop (flashReadRound 0 1 0) 2 (((0 : Nat) : Int), fun _ => 0, ⟨fun _ => 0xFF, 1⟩))
      [replied (readRequest 0 1 0) ⟨0, []⟩] _ :=
    run_readRound (by decide) (by decide) (by decide) (by decide) (by decide) (run_readDone (by decide))
  obtain ⟨c, r, j, hmem, -, -, hj⟩ := h 0 1 _ _ 0 _ (by decide) (by decide) (by simp [InContract, replied]) hrun 0
    (by decide)
  cases List.mem_singleton.1 hmem
  cases hj

end FrameworkHacks.ECTool
