import Vmux.SendTso
import Vmux.TxSegmentation
import Vmux.TxTermination

namespace Vmux.TsoFallback

open Bytes Checksums DescriptorQueue LanTx TxUnits TxDelivery TxPlain TxSegmentation SendTso

def offload (r : EopScan) (mss : ℕ) : Offload := ⟨r.maclen, r.iplen, r.l4len, mss⟩

/-- The calls of `send_tso` for the segments of a unit: their results and the driver afterwards. -/
def sendAll (o : Port) (queue : ℕ) (h : Offload) : List Segment → Dpdk → List Bool × Dpdk
  | [], d => ([], d)
  | s :: rest, d =>
    let r := SendTso.sendTso o d queue (s.data.take (pktLen16 s.d1)) rest.isEmpty h
    if r.1 then
      let t := sendAll o queue h rest r.2
      (true :: t.1, t.2)
    else ([false], r.2)

def answers (o : Port) (queue : ℕ) (d : Dpdk) (u : TxUnit) (i : ℕ) : Bool :=
  (sendAll o queue (offload u.scan (mss u)) u.data d).1.getD (i - 1) false

def after (o : Port) (queue : ℕ) (d : Dpdk) (u : TxUnit) : Dpdk :=
  (sendAll o queue (offload u.scan (mss u)) u.data d).2

section

variable {o : Port} {queue : ℕ} {d₀ d : Dpdk} {bytes : List UInt8}

theorem sendAll_cases (hs : o.tsoSupported = true) (hp : o.ports = 1) (h₀ : d₀.tsoSeg queue = none)
    (hdr : Offload) {segs : List Segment} (hne : segs ≠ []) (h : Carried o queue d₀ bytes d) :
    (∃ n c, Built o d₀ (bytes ++ fetched segs) n c ∧
      hdr.l2Len + hdr.l3Len + hdr.l4Len ≤ c.first.data.length ∧ o.burst d₀.bursts = true ∧
      sendAll o queue hdr segs d = (List.replicate segs.length true, d₀.handed n (ready c hdr))) ∨
    (∃ j < segs.length, ∃ n m b, sendAll o queue hdr segs d = (List.replicate j true ++ [false], d₀.dropped n m b) ∧
      Blocked o d₀ hdr (bytes ++ fetched segs).length) := by
  induction segs generalizing d bytes with
  | nil => exact absurd rfl hne
  | cons s rest ih =>
    have hfetched : bytes ++ fetched (s :: rest) = (bytes ++ s.data.take (pktLen16 s.d1)) ++ fetched rest := by
      rw [List.append_assoc]
      rfl
    rw [sendAll]
    rcases sendTso_cases hs hp h₀ h (s.data.take (pktLen16 s.d1)) rest.isEmpty hdr with
      ⟨heop, d', hcall, hd'⟩ | ⟨heop, n, c, hb, hlen, hburst, hcall⟩ | ⟨n, m, b, hcall, hwhy⟩
    · have hrest : rest ≠ [] := by
        rintro rfl
        cases heop
      rw [hcall, if_pos rfl, hfetched]
      rcases ih hrest hd' with ⟨n, c, hb, hlen, hburst, hall⟩ | ⟨j, hj, n, m, b, hall, hwhy⟩
      · refine .inl ⟨n, c, hb, hlen, hburst, ?_⟩
        rw [hall]
        rfl
      · refine .inr ⟨j + 1, Nat.succ_lt_succ hj, n, m, b, ?_, hwhy⟩
        rw [hall]
        rfl
    · have hrest : rest = [] := List.isEmpty_iff.mp heop
      subst hrest
      rw [hcall, if_pos rfl, hfetched]
      refine .inl ⟨n, c, by simpa [fetched] using hb, hlen, hburst, rfl⟩
    · rw [hcall, if_neg Bool.false_ne_true]
      refine .inr ⟨0, Nat.succ_pos _, n, m, b, rfl, ?_⟩
      have hle : (bytes ++ s.data.take (pktLen16 s.d1)).length ≤ (bytes ++ fetched (s :: rest)).length := by
        simp only [hfetched, List.length_append]
        omega
      rcases hwhy with ⟨k, hk, ha⟩ | ⟨heop, hblock⟩
      · exact .inl ⟨k, hk.trans_le (mbufsFor_mono hle), ha⟩
      · have hrest : rest = [] := List.isEmpty_iff.mp heop
        subst hrest
        rw [hfetched]
        simpa [fetched] using hblock

end

theorem copyCnt_enough {segs : List Segment} {need : ℕ} (h : need ≤ pktLenSum segs) :
    need ≤ pktLenSum (segs.take (copyCnt segs need)) := by
  induction segs generalizing need with
  | nil => simpa [copyCnt] using h
  | cons s rest ih =>
    have hsum : pktLenSum (s :: rest) = pktLen16 s.d1 + pktLenSum rest := by simp [pktLenSum]
    rw [copyCnt]
    split
    · omega
    · have hrest : need - pktLen16 s.d1 ≤ pktLenSum rest := by omega
      have := ih hrest
      simp only [List.take_succ_cons, pktLenSum, List.map_cons, List.sum_cons] at this ⊢
      omega

section

variable {accept : ℕ → Bool} {u : TxUnit}

theorem tries_eq (hu : TcpUnit u) :
    hardwareTso accept u.scan u.lead.mss ((u.segs.take u.scan.dcnt).drop u.lead.dSkip) u.lead.dSkip =
      tries accept u := by
  rw [u.take_segs, u.drop_segs, hu.dSkip]
  rfl

theorem packet_hardware (hu : TcpUnit u) (h : (tries accept u).2 = true) (b : List UInt8) :
    triggerTxPacket accept ⟨0, 0, b⟩ u.segs = .ok (some ⟨⟨0, 0, b⟩, u.segs.length, (tries accept u).1⟩) := by
  have hdcnt : u.scan.dcnt = u.segs.length := by
    rw [u.segs_length, TxUnit.data, List.length_append]
    exact Nat.add_assoc _ _ _
  rw [u.packet_eq, sendUnit, if_neg (by simp [hu.tso])]
  dsimp only
  rw [tries_eq hu, if_pos ⟨hu.tso, rfl, rfl, h⟩, hdcnt]
  rfl

/-- A segment that does not fit `pktbuf` ends in a fault. -/
theorem packet_overflow (hu : TcpUnit u) (hsw : (tries accept u).2 = false) (b : List UInt8)
    (hfit : mtu < min (hdrlen u + mss u) (totalLen u)) (r : Option Sent) :
    triggerTxPacket accept ⟨0, 0, b⟩ u.segs ≠ .ok r := by
  intro h
  rw [u.packet_eq, sendUnit, if_neg (by simp [hu.tso])] at h
  dsimp only at h
  have hlimit : dataLimit u.lead u.scan ⟨0, 0, b⟩ = min (hdrlen u + mss u) (totalLen u) := by
    rw [dataLimit, if_pos hu.tso, if_pos rfl]
    rfl
  rw [tries_eq hu, if_neg (by simp [hsw]), hlimit, u.drop_segs] at h
  cases hcopy : copyLoop (min (hdrlen u + mss u) (totalLen u)) u.data ⟨u.lead.dSkip, 0, ⟨0, 0, b⟩⟩ with
  | error f =>
    rw [hcopy] at h
    cases h
  | ok c =>
    obtain ⟨-, hlen⟩ := copyLoop_reaches hcopy (Nat.zero_le _) (Nat.zero_le _) (by
      dsimp only
      rw [hu.pktLenSum]
      omega)
    dsimp only at hlen
    rw [hcopy] at h
    change Except.map some (if _ then _ else _) = _ at h
    rw [if_pos (by omega)] at h
    cases h

/-- What the copy loop leaves of the unit when its last descriptors are empty. -/
def remnant (u : TxUnit) : TxUnit where
  ctx := none
  inner := u.inner.drop (copyCnt u.data (totalLen u))
  last := u.last
  ctx_dtype := by simp
  inner_data s hs := u.inner_data s (List.mem_of_mem_drop hs)
  last_data := u.last_data
  full s hs := by
    apply u.full s
    rcases List.mem_append.mp hs with hs | hs
    · exact List.mem_append_left _ (List.mem_of_mem_drop hs)
    · exact List.mem_append_right _ hs

theorem remnant_segs (hu : TcpUnit u) (he : txBufSz u.last.d1 = 0) : (remnant u).segs = u.segs.drop (passed u) := by
  have hle : copyCnt u.data (totalLen u) ≤ u.inner.length := by
    have hlast : ¬copyCnt u.data (totalLen u) = u.inner.length + 1 := by
      have hinner : pktLenSum u.inner = bufSzSum u.inner :=
        pktLenSum_eq fun s hs => hu.tagLow s (by simp [TxUnit.data, hs])
      have hsum := bufSzSum_data u
      rw [TxUnit.data, copyCnt_last, hinner]
      unfold totalLen
      omega
    have := copyCnt_le u.data (totalLen u)
    simp only [TxUnit.data, List.length_append, List.length_singleton] at this hlast ⊢
    omega
  rw [passed, ← List.drop_drop, u.drop_segs]
  exact (List.drop_append_of_le_length hle).symm

theorem remnant_empty (hu : TcpUnit u) (he : txBufSz u.last.d1 = 0) : bufSzSum (remnant u).data = 0 := by
  have hsegs : (remnant u).data = u.data.drop (copyCnt u.data (totalLen u)) := by
    have h := remnant_segs hu he
    rw [passed, ← List.drop_drop, u.drop_segs] at h
    exact h
  have hsum : pktLenSum (u.data.take (copyCnt u.data (totalLen u))) + pktLenSum (remnant u).data = totalLen u := by
    rw [hsegs, ← pktLenSum_append, List.take_append_drop, hu.pktLenSum]
  have henough : totalLen u ≤ pktLenSum (u.data.take (copyCnt u.data (totalLen u))) :=
    copyCnt_enough (by rw [hu.pktLenSum])
  have := bufSzSum_le (remnant u).data
  omega

theorem remnant_stalls (hu : TcpUnit u) (he : txBufSz u.last.d1 = 0) (t : TsoState) :
    ¬TxTermination.Moves accept t (remnant u).segs := by
  obtain ⟨x, xs, hx, hl⟩ := (remnant u).segs_cons
  have hunit : TxTermination.unitOf (remnant u).segs = (remnant u).data := by
    have hd : (remnant u).segs.drop (LanTx.lead x).dSkip = (remnant u).inner ++ (remnant u).last :: [] := by
      rw [hl, (remnant u).drop_segs]
      rfl
    exact TxTermination.unitOf_split hx hd (remnant u).inner_data (remnant u).last_data
  have hempty := remnant_empty hu he
  rw [hx] at hunit ⊢
  unfold TxTermination.Moves
  dsimp only
  rw [hunit, hl, hempty]
  simp [TxUnit.lead, remnant]

/-- The states the loop passes through when the unit never ends in software. -/
inductive Looping (accept : ℕ → Bool) (u : TxUnit) : TxState → Prop
  | first {b : List UInt8} (hb : b.length = mtu) : Looping accept u ⟨⟨0, 0, b⟩, u.segs⟩
  | later {i : ℕ} {b : List UInt8} (hi : hdrlen u + i * mss u < totalLen u) (hb : Header u i b) :
      Looping accept u ⟨⟨hdrlen u + i * mss u, hdrlen u, b⟩, u.segs⟩
  | left {t : TsoState} (he : txBufSz u.last.d1 = 0) (ht : TxTermination.Consistent t) :
      Looping accept u ⟨t, (remnant u).segs⟩

theorem Looping.next {calls : List Output} {i : ℕ} {b' : List UInt8} {sent : Sent} (hu : TcpUnit u)
    (hbad : mss u = 0 ∧ hdrlen u < totalLen u ∨ txBufSz u.last.d1 = 0) (hb' : payLen u i = mss u → Header u (i + 1) b')
    (hs : sent = if segEnd u i < totalLen u then ⟨⟨segEnd u i, hdrlen u, b'⟩, 0, calls⟩
      else ⟨⟨0, 0, b'⟩, passed u, calls⟩) : Looping accept u ⟨sent.tso, u.segs.drop sent.popped⟩ := by
  subst hs
  by_cases hmore : segEnd u i < totalLen u
  · have hat := segEnd_full hmore
    rw [if_pos hmore, hat]
    exact .later (by omega) (hb' (payLen_full hmore))
  · have he : txBufSz u.last.d1 = 0 := by
      refine hbad.resolve_left ?_
      rintro ⟨hm, hlt⟩
      have hpay : payLen u i ≤ mss u := min_le_left _ _
      rw [segEnd, hm, Nat.mul_zero] at hmore
      omega
    rw [if_neg hmore]
    change Looping accept u ⟨⟨0, 0, b'⟩, u.segs.drop (passed u)⟩
    rw [← remnant_segs hu he]
    exact .left he fun _ => rfl

/-- With an MSS of 0, or an empty last descriptor, the software path never comes to an end. -/
theorem software_never (hu : Fitting u) (hsw : (tries accept u).2 = false)
    (hbad : mss u = 0 ∧ hdrlen u < totalLen u ∨ txBufSz u.last.d1 = 0) {b : List UInt8} (hb : b.length = mtu)
    {calls : List Output} {n : ℕ} {s' : TxState} : ¬TriggerTx accept ⟨⟨0, 0, b⟩, u.segs⟩ calls n s' := by
  refine TriggerTx.never (P := Looping accept u) ?_ ?_ (.first hb)
  · intro s hs
    cases hs with
    | first hb =>
      obtain ⟨f, b', -, -, hcall⟩ := packet_first accept hu hb hsw
      simp [hcall]
    | later hi hb =>
      obtain ⟨f, b', -, -, hcall⟩ := packet_later accept hu hi hb
      simp [hcall]
    | left he ht =>
      intro h
      rw [(remnant u).packet_eq] at h
      cases hsend : sendUnit accept _ (remnant u).segs (remnant u).lead (remnant u).scan <;> rw [hsend] at h <;> cases h
  · intro s sent hs h
    cases hs with
    | first hb =>
      obtain ⟨f, b', -, hb', hcall⟩ := packet_first accept hu hb hsw
      rw [hcall] at h
      exact Looping.next hu.toTcpUnit hbad hb' (Option.some.inj (Except.ok.inj h)).symm
    | later hi hb =>
      obtain ⟨f, b', -, hb', hcall⟩ := packet_later accept hu hi hb
      rw [hcall] at h
      exact Looping.next hu.toTcpUnit hbad hb' (Option.some.inj (Except.ok.inj h)).symm
    | left he ht =>
      obtain ⟨hsame, -⟩ := TxTermination.stall_persists ht h (remnant_stalls hu.toTcpUnit he _)
      rw [hsame]
      exact .left he (TxTermination.sent_consistent ht h)

/-- Once the hardware has refused, the unit goes out in software exactly when it is sendable. -/
theorem software_iff (hu : TcpUnit u) (hsw : (tries accept u).2 = false) {b : List UInt8} (hb : b.length = mtu) :
    (∃ calls n s', TriggerTx accept ⟨⟨0, 0, b⟩, u.segs⟩ calls n s') ↔ Sendable u := by
  constructor
  · rintro ⟨calls, n, s', h⟩
    have hfit : min (hdrlen u + mss u) (totalLen u) ≤ mtu := by
      by_contra hne
      rcases h.cases with ⟨hp, -⟩ | ⟨sent, _, _, hp, -⟩ <;> exact packet_overflow hu hsw b (by omega) _ hp
    have hgood : ¬(mss u = 0 ∧ hdrlen u < totalLen u ∨ txBufSz u.last.d1 = 0) := fun hbad =>
      software_never ⟨hu, hfit⟩ hsw hbad hb h
    exact ⟨⟨hu, hfit⟩, by omega, fun he => hgood (.inr he)⟩
  · intro hsend
    obtain ⟨frames, b', hrun, -⟩ := segments_all hsend b hb hsw
    exact ⟨_, _, _, hrun⟩

end

section

variable (o : Port) (queue : ℕ) (d : Dpdk) (u : TxUnit)

/-- All mbufs for the unit are there and the port takes the packet. -/
def PortTakes : Prop :=
  (∀ k < mbufsFor (totalLen u), o.alloc (d.allocs + k) = true) ∧ o.burst d.bursts = true

/-- The unit as one chain. -/
structure Carries (c : Chain) : Prop where
  bytes : SameOutside (checksumFields (ipOff u) (iplen u.last.d1)) (unitBytes u) c.bytes
  pktLen : c.pktLen = totalLen u
  nbSegs : c.nbSegs = c.mbufs.length

def InHardware (calls : List Output) : Prop :=
  (∀ x ∈ calls, offered x = true) ∧ (after o queue d u).freed = d.freed ∧
    ∃ c, Carries u c.1 ∧ (after o queue d u).accepted = d.accepted ++ [c] ∧
      (after o queue d u).allocated = d.allocated ++ c.1.ids ∧ c.1.ids.Nodup

def InSoftware (calls : List Output) : Prop :=
  (∃ (refused : List Output) (frames : List (List UInt8)), calls = refused ++ frames.map .ethSend ∧
    (∀ x ∈ refused, offered x = true) ∧ frames.length = frameCount u ∧ ∀ i f, frames[i]? = some f → Frame u i f) ∧
  (after o queue d u).accepted = d.accepted ∧
    ∃ ids, (after o queue d u).freed = d.freed ++ ids ∧ (after o queue d u).allocated = d.allocated ++ ids ∧ ids.Nodup

/-- The unit goes out once, on one of the two paths, and nothing of it stays behind. -/
def SentOnce (pktbuf : List UInt8) : Prop :=
  ∃ calls s', Deliver (answers o queue d u) ⟨⟨0, 0, pktbuf⟩, []⟩ u.segs calls u.segs.length s' ∧ s'.ready = [] ∧
    s'.tso.tsoLen = 0 ∧ s'.tso.tsoOff = 0 ∧ (after o queue d u).tsoSeg queue = none ∧
    (InHardware o queue d u calls ∨ InSoftware o queue d u calls)

end

section

variable {o : Port} {queue : ℕ} {d : Dpdk} {u : TxUnit}

theorem tries_answered (h : (sendAll o queue (offload u.scan (mss u)) u.data d).1 = List.replicate u.data.length true) :
    (tries (answers o queue d u) u).2 = true := by
  refine (hardwareTso_accepts _ _ _ _ _).mpr fun j hj => ?_
  rw [answers, h, Nat.add_sub_cancel_left, List.getD_eq_getElem?_getD, List.getElem?_replicate_of_lt hj]
  rfl

theorem answers_refused {j : ℕ} (hj : j < u.data.length)
    (h : (sendAll o queue (offload u.scan (mss u)) u.data d).1 = List.replicate j true ++ [false]) :
    Refused (answers o queue d u) u := by
  refine ⟨j, hj, ?_⟩
  rw [answers, h, Nat.add_sub_cancel_left]
  simp

theorem header_fits (hu : TcpUnit u) :
    ¬min room (totalLen u) < (offload u.scan (mss u)).l2Len + (offload u.scan (mss u)).l3Len +
      (offload u.scan (mss u)).l4Len := by
  have hlen : (offload u.scan (mss u)).l2Len + (offload u.scan (mss u)).l3Len + (offload u.scan (mss u)).l4Len =
      hdrlen u := rfl
  have hh := hu.header
  have hip := hu.ipv4.2
  have hmac : maclen u.last.d1 < 0x100 := by
    unfold LanTx.maclen
    omega
  have hl4 : l4len u.last.d1 < 0x40 := by
    unfold LanTx.l4len
    omega
  rw [hlen]
  unfold room
  unfold hdrlen at hh ⊢
  omega

theorem carries_ready {n : ℕ} {c : Chain} (hu : TcpUnit u) (hb : Built o d (unitBytes u) n c)
    (hlen : hdrlen u ≤ c.first.data.length) : Carries u (ready c (offload u.scan (mss u))).1 := by
  obtain ⟨-, hmbufs, hnb, hpkt⟩ := c.setFirst_shape (prepareHeader c.first.data (ipOff u) (iplen u.last.d1))
  obtain ⟨rest, hbytes, hset⟩ := c.first_split
  refine ⟨?_, ?_, ?_⟩
  · have hsame := (prepareHeader_same hu.ipv4.1 hu.tcp hlen).append rest
    rw [← hbytes, ← hset, hb.bytes] at hsame
    exact hsame
  · exact hpkt.trans (hb.wf.pktLen.trans (by rw [hb.bytes, hu.unitBytes_length]))
  · exact hnb.trans (hb.wf.nbSegs.trans hmbufs.symm)

theorem hardware_tso_sent_once {pktbuf : List UInt8} (hs : o.tsoSupported = true) (hp : o.ports = 1)
    (h₀ : d.tsoSeg queue = none) (hu : TcpUnit u) (hbuf : pktbuf.length = mtu) :
    SentOnce o queue d u pktbuf ↔ PortTakes o d u ∨ Sendable u := by
  have hne : u.data ≠ [] := by simp [TxUnit.data]
  have hbytes : [] ++ fetched u.data = unitBytes u := rfl
  have hlen := hu.unitBytes_length
  simp only [SentOnce, u.deliver_segs]
  rcases sendAll_cases hs hp h₀ (offload u.scan (mss u)) hne .start with
    ⟨n, c, hb, hfirst, hburst, hall⟩ | ⟨j, hj, n, m, b, hall, hblock⟩
  · rw [hbytes] at hb
    have hafter : after o queue d u = d.handed n (ready c (offload u.scan (mss u))) := congrArg Prod.snd hall
    have hids : (ready c (offload u.scan (mss u))).1.ids = List.range' d.allocs n := (c.setFirst_shape _).1.trans hb.ids
    refine iff_of_true ?_ (.inl ⟨?_, hburst⟩)
    · have hhw := tries_answered (congrArg Prod.fst hall)
      have hrun := TriggerTx.turn (s := ⟨⟨0, 0, pktbuf⟩, u.segs⟩) (packet_hardware hu hhw pktbuf)
        (.stop (by rw [List.drop_length]; rfl))
      rw [List.append_nil, Nat.add_zero] at hrun
      refine ⟨_, _, hrun, List.drop_length, rfl, rfl, ?_, .inl ⟨hardwareTso_offered _ _ _ _ _, ?_, _, carries_ready hu hb hfirst,
        ?_, ?_, ?_⟩⟩
      · rw [hafter]
        exact h₀
      · rw [hafter]
        rfl
      · rw [hafter]
        rfl
      · rw [hafter, hids]
        rfl
      · rw [hids]
        exact List.nodup_range'
    · intro k hk
      rw [← hlen, ← hb.mbufs] at hk
      exact hb.allocs k hk
  · rw [hbytes, hlen] at hblock
    have hafter : after o queue d u = d.dropped n m b := congrArg Prod.snd hall
    have hsw := tries_refused (answers_refused hj (congrArg Prod.fst hall))
    have hport : ¬PortTakes o d u := by
      rintro ⟨halloc, hburst⟩
      rcases hblock with ⟨k, hk, ha⟩ | hhead | hb
      · rw [halloc k hk] at ha
        cases ha
      · exact header_fits hu hhead
      · rw [hburst] at hb
        cases hb
    rw [or_iff_right hport, ← software_iff hu hsw hbuf]
    constructor
    · rintro ⟨calls, s', hrun, -⟩
      exact ⟨_, _, _, hrun⟩
    · intro hruns
      obtain ⟨frames, b', hrun, hcount, hframes⟩ := segments_all ((software_iff hu hsw hbuf).mp hruns) pktbuf hbuf hsw
      refine ⟨_, _, hrun, rfl, rfl, rfl, ?_, .inr ⟨⟨_, frames, rfl, hardwareTso_offered _ _ _ _ _, hcount, hframes⟩, ?_,
        List.range' d.allocs n, ?_, ?_, List.nodup_range'⟩⟩
      · rw [hafter]
        exact h₀
      all_goals rw [hafter]
      all_goals rfl

end

def freshDriver : Dpdk := ⟨fun _ => none, 0, 0, [], [], []⟩

def emptyPool : Port := ⟨true, 1, fun _ => false, fun _ => true⟩

theorem tenBytes_tcpUnit : TcpUnit tenBytes := ⟨by decide, by decide, by decide, by decide, by decide⟩

theorem hardware_tso_sent_once_tenBytes : SentOnce emptyPool 0 freshDriver tenBytes (List.replicate mtu 0) :=
  (hardware_tso_sent_once rfl rfl rfl tenBytes_tcpUnit List.length_replicate).mpr
    (.inr ⟨⟨tenBytes_tcpUnit, by unfold mtu; decide⟩, by decide, by decide⟩)

/-- 64 bytes and an empty descriptor with the EOP bit, MSS 1460. -/
def emptyEnd : TxUnit where
  ctx := some ⟨0, 0x11 + 1460 * 0x4000000000000, []⟩
  inner := [⟨0, 64 * 0x400000000, List.replicate 64 0⟩]
  last := ⟨0, 0x10 + 7 * 0x10000 + 5 * 0x800000 + 5 * 0x40000000, []⟩
  ctx_dtype := by
    rintro _ ⟨⟩
    rfl
  inner_data := by decide
  last_data := by decide
  full := by
    unfold Full
    decide

theorem hardware_tso_emptyEnd_stuck :
    TcpUnit emptyEnd ∧ ¬SentOnce emptyPool 0 freshDriver emptyEnd (List.replicate mtu 0) := by
  have hu : TcpUnit emptyEnd := ⟨by decide, by decide, by decide, by decide, by decide⟩
  have hsw : (tries (answers emptyPool 0 freshDriver emptyEnd) emptyEnd).2 = false :=
    tries_refused ⟨0, by decide, by rfl⟩
  have hfit : min (hdrlen emptyEnd + mss emptyEnd) (totalLen emptyEnd) ≤ mtu := by
    unfold mtu
    decide
  refine ⟨hu, ?_⟩
  rintro ⟨calls, s', hrun, -⟩
  rw [emptyEnd.deliver_segs] at hrun
  exact software_never ⟨hu, hfit⟩ hsw (.inr (by decide)) List.length_replicate hrun

end Vmux.TsoFallback
