import Vmux.TxAccesses
import Vmux.TxFrames

namespace Vmux.TxBounds

open Bytes CircularWindow Transitions DescriptorQueue LanTx TxUnits TxTermination TxByteExact TxFrames

/-- The descriptors that stand first make up this unit. -/
structure UnitAt (segs : List Segment) (s : Segment) (inner : List Segment) (e : Segment) (rest : List Segment) : Prop where
  head : segs.head? = some s
  split : segs.drop (lead s).dSkip = inner ++ e :: rest
  inner_data : ∀ x ∈ inner, Inner x
  last_data : Last e

def PacketFits (accept : ℕ → Bool) (t : TsoState) (segs : List Segment) : Prop :=
  ∀ s inner e rest, UnitAt segs s inner e rest → UnitFits accept t (lead s) inner e

/-- The transmit queue as its own code sees it: `running` is `trigger_tx`. -/
structure Sender where
  tso : TsoState
  ready : List Segment
  running : Bool

/-- A descriptor is handed over with what was fetched for it, `trigger_tx` calls `trigger_tx_packet`, or the queue is reset. -/
inductive SenderStep (s s' : Sender) : Prop
  | process (x : Segment) (hr : s.running = false) (hc : s.ready.length < maxActiveDescs)
      (hx : dtype x.d1 = dtypeData → Full x) (h : s' = ⟨s.tso, s.ready ++ [x], true⟩)
  | packet (accept : ℕ → Bool) (sent : Sent) (hr : s.running = true)
      (hp : triggerTxPacket accept s.tso s.ready = .ok (some sent)) (h : s' = ⟨sent.tso, s.ready.drop sent.popped, true⟩)
  | waits (accept : ℕ → Bool) (hr : s.running = true) (hp : triggerTxPacket accept s.tso s.ready = .ok none)
      (h : s' = { s with running := false })
  | reset (hr : s.running = false) (h : s' = ⟨⟨0, 0, s.tso.pktbuf⟩, [], false⟩)

def sender : Machine Sender where
  start s := Fresh s.tso ∧ s.tso.pktbuf.length = mtu ∧ s.ready = [] ∧ s.running = false
  step := SenderStep

section

variable {segs inner inner' rest rest' : List Segment} {s s' e e' : Segment} {t : TsoState} {accept : ℕ → Bool}

theorem UnitAt.unique (h : UnitAt segs s inner e rest) (h' : UnitAt segs s' inner' e' rest') :
    s = s' ∧ inner = inner' ∧ e = e' := by
  obtain rfl := Option.some.inj (h.head.symm.trans h'.head)
  have hu := @dataUnit_split inner rest e h.inner_data h.last_data
  have hu' := @dataUnit_split inner' rest' e' h'.inner_data h'.last_data
  rw [← h.split, h'.split, hu'] at hu
  obtain ⟨h1, h2⟩ := List.append_inj' hu rfl
  exact ⟨rfl, h1.symm, (List.singleton_inj.mp h2).symm⟩

theorem UnitAt.scan (h : UnitAt segs s inner e rest) :
    eopScan (segs.drop (lead s).dSkip) (.start (lead s).dSkip) = .ok (EopScan.unit (lead s).dSkip inner e) := by
  rw [h.split]
  exact eopScan_unit _ h.inner_data h.last_data

theorem UnitAt.of_scan {r : EopScan} (hs : segs.head? = some s)
    (hr : eopScan (segs.drop (lead s).dSkip) (.start (lead s).dSkip) = .ok r) (heop : r.eop = true) :
    ∃ inner e rest, UnitAt segs s inner e rest ∧ r = EopScan.unit (lead s).dSkip inner e := by
  obtain ⟨inner, e, rest, hsplit, hin, he⟩ := eopScan_split rfl hr heop
  have hu : UnitAt segs s inner e rest := ⟨hs, hsplit, hin, he⟩
  exact ⟨inner, e, rest, hu, Except.ok.inj (hr.symm.trans hu.scan)⟩

theorem UnitAt.not_none (h : UnitAt segs s inner e rest) : triggerTxPacket accept t segs ≠ .ok none := by
  cases segs with
  | nil => cases h.head
  | cons x xs =>
    cases h.head
    intro hp
    rw [triggerTxPacket, h.scan] at hp
    change (do let sent ← sendUnit accept t (s :: xs) (lead s) _; Except.ok (some sent)) = _ at hp
    cases hu : sendUnit accept t (s :: xs) (lead s) (EopScan.unit (lead s).dSkip inner e) <;> rw [hu] at hp <;> cases hp

theorem UnitAt.of_sent {sent : Sent} (h : triggerTxPacket accept t segs = .ok (some sent)) :
    ∃ s inner e rest, UnitAt segs s inner e rest ∧
      sendUnit accept t segs (lead s) (EopScan.unit (lead s).dSkip inner e) = .ok sent := by
  obtain ⟨s, tail, inner, e, rest, hs, hd, hin, he, hu⟩ := triggerTxPacket_sent h
  exact ⟨s, inner, e, rest, ⟨by rw [hs]; rfl, hd, hin, he⟩, hu⟩

end

theorem bufSzSum_lt (segs : List Segment) : bufSzSum segs ≤ segs.length * 0x4000 := by
  have h : ∀ x ∈ segs.map fun s => txBufSz s.d1, x ≤ 0x4000 := by
    simp only [List.mem_map, forall_exists_index, and_imp, forall_apply_eq_imp_iff₂]
    intro s _
    unfold txBufSz
    omega
  simpa [bufSzSum] using List.sum_le_card_nsmul _ _ h

/-- At rest, and whenever `trigger_tx_packet` is called. -/
structure Steady (s : Sender) : Prop where
  cnt : s.ready.length ≤ maxActiveDescs
  full : ∀ x ∈ s.ready, dtype x.d1 = dtypeData → Full x
  state : Fresh s.tso ∨ s.running = true ∧
    ∃ x inner e rest, UnitAt s.ready x inner e rest ∧ Midway s.tso (lead x) inner e

section

variable {s s' : Sender} {x e : Segment} {inner rest : List Segment}

theorem Steady.located (h : Steady s) (hu : UnitAt s.ready x inner e rest) : Located s.ready (lead x) inner e rest := by
  have hmem : ∀ y ∈ inner ++ [e], y ∈ s.ready ∧ dtype y.d1 = dtypeData := by
    intro y hy
    refine ⟨List.mem_of_mem_drop (i := (lead x).dSkip) ?_, ?_⟩
    · rw [hu.split, List.append_cons]
      exact List.mem_append_left _ hy
    · rcases List.mem_append.mp hy with hy | hy
      · exact (hu.inner_data y hy).1
      · rw [List.mem_singleton.mp hy]
        exact hu.last_data.1
  refine ⟨hu.split, fun y hy => h.full y (hmem y hy).1 (hmem y hy).2, ?_⟩
  have hlen : (inner ++ [e]).length ≤ s.ready.length := by
    have hd := congrArg List.length hu.split
    simp only [List.length_drop, List.length_append, List.length_cons, List.length_nil] at hd ⊢
    omega
  have hsum := bufSzSum_lt (inner ++ [e])
  have hcnt := h.cnt
  unfold maxActiveDescs at hcnt
  omega

theorem Steady.unit_state (h : Steady s) (hu : UnitAt s.ready x inner e rest) :
    Fresh s.tso ∨ Midway s.tso (lead x) inner e := by
  rcases h.state with hf | ⟨-, y, inner', e', rest', hu', hm⟩
  · exact .inl hf
  · obtain ⟨rfl, rfl, rfl⟩ := hu.unique hu'
    exact .inr hm

theorem Steady.step (h : Steady s) (hs : SenderStep s s') : Steady s' := by
  cases hs with
  | process x hr hc hx he =>
    rw [he]
    refine ⟨by simpa using hc, ?_, .inl ?_⟩
    · intro y hy
      rcases List.mem_append.mp hy with hy | hy
      · exact h.full y hy
      · rw [List.mem_singleton.mp hy]
        exact hx
    · rcases h.state with hf | ⟨hrun, -⟩
      · exact hf
      · rw [hr] at hrun
        cases hrun
  | packet accept sent hr hp he =>
    rw [he]
    obtain ⟨x, inner, e, rest, hu, hsend⟩ := UnitAt.of_sent hp
    refine ⟨?_, fun y hy => h.full y (List.mem_of_mem_drop hy), ?_⟩
    · have hcnt := h.cnt
      simp only [List.length_drop]
      omega
    · rcases sent_fresh_or_midway (h.located hu) (h.unit_state hu) hsend with hf | ⟨hm, hpop⟩
      · exact .inl hf
      · refine .inr ⟨rfl, x, inner, e, rest, ?_, hm⟩
        rw [hpop]
        exact hu
  | waits accept hr hp he =>
    rw [he]
    refine ⟨h.cnt, h.full, .inl ?_⟩
    rcases h.state with hf | ⟨-, x, inner, e, rest, hu, -⟩
    · exact hf
    · exact absurd hp hu.not_none
  | reset hr he =>
    rw [he]
    exact ⟨by simp, by simp, .inl ⟨rfl, rfl⟩⟩

theorem Steady.reachable (h : sender.Reachable s) : Steady s := by
  induction h with
  | start h =>
    obtain ⟨hf, -, hready, -⟩ := h
    exact ⟨by simp [hready], by simp [hready], .inl hf⟩
  | step _ hs ih => exact ih.step hs

theorem Steady.sound_iff (h : Steady s) (accept : ℕ → Bool) :
    (∀ op ∈ packetOps accept s.tso s.ready, op.Sound) ↔ PacketFits accept s.tso s.ready := by
  cases hready : s.ready with
  | nil => exact iff_of_true (by simp [packetOps]) fun x inner e rest hu => by cases hu.head
  | cons x xs =>
    rw [← hready]
    have hhead : s.ready.head? = some x := by rw [hready]; rfl
    by_cases hex : ∃ inner e rest, UnitAt s.ready x inner e rest
    · obtain ⟨inner, e, rest, hu⟩ := hex
      have hops : packetOps accept s.tso s.ready =
          unitOps accept s.tso s.ready (lead x) (EopScan.unit (lead x).dSkip inner e) := by
        have hscan := hu.scan
        rw [hready] at hscan ⊢
        rw [packetOps, hscan]
        rfl
      have hfits : PacketFits accept s.tso s.ready ↔ UnitFits accept s.tso (lead x) inner e := by
        refine ⟨fun hp => hp x inner e rest hu, fun hf y inner' e' rest' hu' => ?_⟩
        obtain ⟨rfl, rfl, rfl⟩ := hu.unique hu'
        exact hf
      rw [hops, hfits]
      cases htso : (lead x).tso with
      | true => exact tso_sound_iff (h.located hu) htso (h.unit_state hu)
      | false =>
        refine plain_sound_iff (h.located hu) htso ?_
        rcases h.unit_state hu with hf | hm
        · exact hf
        · have := hm.tso
          rw [htso] at this
          cases this
    · refine iff_of_true ?_ fun y inner e rest hu => ?_
      · have hops : packetOps accept s.tso s.ready = [] := by
          rw [hready, packetOps, ← hready]
          cases hscan : eopScan (s.ready.drop (lead x).dSkip) (.start (lead x).dSkip) with
          | error f => rfl
          | ok r =>
            dsimp only
            rw [if_neg]
            intro heop
            obtain ⟨inner, e, rest, hu, -⟩ := UnitAt.of_scan hhead hscan heop
            exact hex ⟨inner, e, rest, hu⟩
        simp [hops]
      · obtain rfl := Option.some.inj (hhead.symm.trans hu.head)
        exact absurd ⟨inner, e, rest, hu⟩ hex

end

def running : List (Cmd Unit) → Bool
  | .resume _ :: _ => true
  | _ => false

/-- What the queue is to the code of its subclass. -/
def view (c : Config TxClient Unit) : Sender := ⟨c.client.tso, ready c, running c.stack⟩

def txRing (base len : ℕ) : Machine (Config TxClient Unit) where
  start c := (machine LanTx.subclass base len).start c ∧ Fresh c.client.tso ∧ c.client.tso.pktbuf.length = mtu
  step := QueueStep LanTx.subclass

section

variable {base len : ℕ} {c c' : Config TxClient Unit} {env : Env TxEnv} {rest : List (Cmd Unit)}

theorem running_eq_false {stack : List (Cmd Unit)} (h : ∀ x ∈ stack, x.isResume = false) : running stack = false := by
  cases stack with
  | nil => rfl
  | cons x xs =>
    have hx := h x (by simp)
    cases x with
    | resume k => cases hx
    | _ => rfl

theorem txRing_machine (h : (txRing base len).Reachable c) : (machine LanTx.subclass base len).Reachable c := by
  induction h with
  | start h => exact .start h.1
  | step _ hs ih => exact .step ih hs

theorem ready_length_le (hi : Inv LanTx.subclass c) : (ready c).length ≤ maxActiveDescs := by
  have hcard := (held_nodup hi.owned).length_le_card
  simpa [ready, LanTx.subclass] using hcard

theorem ready_resume (hi : Inv LanTx.subclass c)
    (he : exec LanTx.subclass env { c with stack := rest } (.resume ()) = .ok c') :
    (triggerTxPacket env.client.accept c.client.tso (ready c) = .ok none ∧ c' = { c with stack := rest }) ∨
      ∃ sent, triggerTxPacket env.client.accept c.client.tso (ready c) = .ok (some sent) ∧ c'.client.tso = sent.tso ∧
        ready c' = (ready c).drop sent.popped ∧ c'.stack = .resume () :: rest := by
  have hnd : c.client.readySegments.Nodup := held_nodup hi.owned
  obtain ⟨e, hr, ha⟩ := resume_ok he
  obtain ⟨r, hp, hr⟩ := bind_ok hr
  cases r with
  | none =>
    cases hr
    obtain ⟨q, hq, rfl⟩ := applyEffect_ok ha
    cases hq
    refine .inl ⟨hp, ?_⟩
    simp [setDatas, setDescs]
  | some sent =>
    cases hr
    obtain ⟨hd, hb⟩ := applyEffect_contents ha
    have ha := applyEffect_applied ha
    refine .inr ⟨sent, hp, by rw [ha.client], ?_, ha.stack⟩
    have hsegs : c'.client.readySegments = c.client.readySegments.drop sent.popped := by rw [ha.client]
    rw [ready, ready, hsegs, ← List.map_drop]
    apply List.map_congr_left
    intro p hmem
    refine segment_congr ((congr_fun hd p).trans ?_) (congr_fun hb p)
    apply assigned_of_notMem
    intro x hx heq
    obtain ⟨y, hy, rfl⟩ := List.mem_map.mp hx
    change y = p at heq
    rw [heq] at hy
    exact List.disjoint_take_drop hnd le_rfl hy hmem

theorem view_reachable (h : (txRing base len).Reachable c) :
    sender.Reachable (view c) ∧ ∀ x ∈ c.stack.tail, x.isResume = false := by
  induction h with
  | @start c h =>
    obtain ⟨hstart, hf, hbuf⟩ := h
    refine ⟨.start ⟨hf, hbuf, ?_, ?_⟩, ?_⟩
    · have hheld : c.client.readySegments = [] := hstart.held
      simp [view, ready, hheld]
    · simp [view, hstart.stack, trigger, running]
    · simp [hstart.stack, trigger, Cmd.isResume]
  | @step c c' hr hs ih =>
    obtain ⟨hview, htail⟩ := ih
    have hm := txRing_machine hr
    have hi := Inv.reachable hm
    have hi' := Inv.reachable (.step hm hs)
    cases hs with
    | exec env cmd rest hst he =>
      rw [hst] at htail
      rcases exec_subclass (c := { c with stack := rest }) hi.enabled he with
        hq | ⟨i, j, p, e, rfl, rfl, hlt, hprep, hpr, ha⟩ | ⟨k, e, rfl, -, -⟩
      · -- the queue's own commands
        obtain ⟨new, hnew, hquiet⟩ := hq.stack
        have hnone : ∀ x ∈ c'.stack, x.isResume = false := by
          rw [hnew]
          intro x hx
          rcases List.mem_append.mp hx with hx | hx
          · exact hquiet x hx
          · exact htail x hx
        have hsame : view c' = view c := by
          have hclient : c'.client = c.client := hq.client
          have hbefore : running c.stack = false := by
            apply running_eq_false
            rw [hst]
            intro x hx
            rcases List.mem_cons.mp hx with rfl | hx
            · exact hq.cmd.1
            · exact htail x hx
          rw [view, view, ready_quiet hi hst he hq, hclient, running_eq_false hnone, hbefore]
        rw [hsame]
        exact ⟨hview, fun x hx => hnone x (List.mem_of_mem_tail hx)⟩
      · obtain ⟨hclient, hstack, -, hready⟩ := ready_process he hlt hprep
        have hlen := ready_length_le hi'
        rw [hready, List.length_append] at hlen
        obtain ⟨orig, hc⟩ := @reachable_contents (fun _ => 0) _ _ _ (.step hm (.exec env _ rest hst he))
        refine ⟨.step hview (.process (segment (c.q.ctx (c.q.activeFirstPos + (i + j)))) ?_ hlen ?_ ?_), ?_⟩
        · simp [view, hst, running]
        · intro hd
          exact (ready_brought hc (by rw [hready]; simp) hd).1
        · rw [view, hready, hstack, hclient]
          rfl
        · rw [hstack]
          intro x hx
          rcases List.mem_cons.mp hx with rfl | hx
          · rfl
          · exact htail x hx
      · have hrun : (view c).running = true := by simp [view, hst, running]
        rcases ready_resume hi he with ⟨hp, rfl⟩ | ⟨sent, hp, htso, hready, hstack⟩
        · refine ⟨.step hview (.waits env.client.accept hrun hp ?_), fun x hx => htail x (List.mem_of_mem_tail hx)⟩
          have hbelow : running rest = false := running_eq_false htail
          rw [view, hbelow]
          rfl
        · refine ⟨.step hview (.packet env.client.accept sent hrun hp ?_), ?_⟩
          · rw [view, htso, hready, hstack]
            rfl
          · rw [hstack]
            exact htail
    | tail t ht hst h =>
      have hstack : (tailWrite c t).stack = trigger Unit := by
        rw [tailWrite, hi.enabled, hst]
        rfl
      have hsame : view (tailWrite c t) = view c := by
        rw [view, view, hstack, hst]
        rfl
      rw [h, hsame, hstack]
      exact ⟨hview, by simp [trigger, Cmd.isResume]⟩
    | receive env x hst h => exact x.elim

end

section

variable {accept : ℕ → Bool} {t : TsoState} {segs : List Segment} {l : Lead} {r : EopScan}

theorem unitOps_unsound (hlimit : r.totalLen < 0x100000000) (h : sendUnit accept t segs l r = .error .outOfBounds) :
    ∃ op ∈ unitOps accept t segs l r, ¬op.Sound := by
  unfold sendUnit at h
  unfold unitOps
  split at h
  · cases h
  · rename_i hbig
    rw [if_neg hbig]
    dsimp only at h
    split at h
    · cases h
    · rename_i hhw
      rw [if_neg hhw]
      have hlim := (dataLimit_le l r t).trans_lt hlimit
      cases hcopy : copyLoop (dataLimit l r t) (segs.drop l.dSkip) ⟨l.dSkip, 0, t⟩ with
      | error f =>
        have hnot := mt (@copyLoopOps_sound_iff (dataLimit l r t) (segs.drop l.dSkip) ⟨l.dSkip, 0, t⟩ hlim).mp (by simp [hcopy])
        push Not at hnot
        obtain ⟨op, hop, hns⟩ := hnot
        exact ⟨op, List.mem_append_left _ hop, hns⟩
      | ok c =>
        rw [hcopy] at h
        change (if _ then _ else _) = _ at h
        split at h
        · cases h
        · rename_i hlen
          dsimp only
          rw [if_neg hlen]
          split at h
          · rename_i htso
            rw [if_pos htso]
            rcases bind_error h with h | ⟨x, -, h⟩
            · unfold sendTso at h
              dsimp only at h
              split at h
              · rename_i hover
                refine ⟨.pktbuf (r.maclen + r.iplen % 0x100) (r.l4len +
                  min (sub32 c.tso.tsoLen (r.maclen + r.iplen + r.l4len)) l.mss), ?_, ?_⟩
                · apply List.mem_append_right
                  simp [sendTsoOps, xsumTcpipTsoOps]
                · unfold Op.Sound
                  omega
              · split at h <;> cases h
            · cases h
          · rename_i htso
            rw [if_neg htso]
            unfold sendPlain at h
            dsimp only at h
            split at h
            · rename_i hunder
              refine ⟨.sub c.tso.tsoLen (r.maclen + r.iplen), ?_, by simpa [Op.Sound] using hunder.2⟩
              apply List.mem_append_right
              unfold sendPlainOps
              dsimp only
              rcases hunder.1 with ht | ht
              · simp [ht]
              · simp [ht, l4tTcp, l4tUdp]
            · cases h

theorem Steady.in_bounds {s : Sender} (h : Steady s) (hops : ∀ op ∈ packetOps accept s.tso s.ready, op.Sound) :
    triggerTxPacket accept s.tso s.ready ≠ .error .outOfBounds := by
  intro he
  cases hready : s.ready with
  | nil =>
    rw [hready] at he
    cases he
  | cons x xs =>
    have hhead : s.ready.head? = some x := by rw [hready]; rfl
    rw [hready] at he hops
    rcases bind_error he with hscan | ⟨r, hscan, he⟩
    · cases eopScan_error hscan
    · rw [← hready] at hscan
      split at he
      · cases he
      · rename_i heop
        have heop : r.eop = true := by simpa using heop
        obtain ⟨inner, e, rest, hu, rfl⟩ := UnitAt.of_scan hhead hscan heop
        rcases bind_error he with he | ⟨sent, -, he⟩
        · obtain ⟨op, hop, hns⟩ := unitOps_unsound (h.located hu).small he
          refine hns (hops op ?_)
          rw [packetOps, ← hready, hscan]
          dsimp only
          rw [hready, if_pos heop]
          exact hop
        · cases he

end

/-- Everything that a call of `trigger_tx_packet` reads, writes and subtracts stays in bounds exactly if the unit
that it is about to send fits. -/
theorem tx_buffer_bounds (base len : ℕ) :
    (∀ s, sender.Reachable s → ∀ accept,
      ((∀ op ∈ packetOps accept s.tso s.ready, op.Sound) ↔ PacketFits accept s.tso s.ready) ∧
      ((∀ op ∈ packetOps accept s.tso s.ready, op.Sound) →
        triggerTxPacket accept s.tso s.ready ≠ .error .outOfBounds)) ∧
    ∀ c, (txRing base len).Reachable c → sender.Reachable (view c) :=
  ⟨fun _ h accept => ⟨(Steady.reachable h).sound_iff accept, (Steady.reachable h).in_bounds⟩,
    fun _ h => (view_reachable h).1⟩

section

variable {x e : Segment}

theorem unitAt_single (he : Last e) : UnitAt [e] e [] e [] := by
  refine ⟨rfl, ?_, by simp, he⟩
  rw [lead, if_neg (by rw [he.1]; decide)]
  rfl

theorem unitAt_pair (hx : dtype x.d1 = dtypeCtx) (he : Last e) : UnitAt [x, e] x [] e [] := by
  refine ⟨rfl, ?_, by simp, he⟩
  rw [lead, if_pos hx]
  rfl

theorem freshTx_start : (txRing 0x1000 4).start freshTx :=
  ⟨⟨rfl, rfl, rfl, by decide, by decide, rfl, rfl, rfl, fun _ => rfl, rfl, rfl, rfl⟩, ⟨rfl, rfl⟩, by
    simp [freshTx, Config.enabled]⟩

theorem txRing_postTx {descs : List (ℕ × ℕ)} {n : ℕ} {ds : List ℕ} (hd : descs.length < 0x100000000)
    (h : (postTx descs n).toOption.map (fun c => (running c.stack, (ready c).map Segment.d1)) = some (true, ds)) :
    ∃ c, (txRing 0x1000 4).Reachable c ∧ (view c).running = true ∧ (view c).ready.map Segment.d1 = ds := by
  obtain ⟨c, hrun, hobs⟩ := ok_of_map h
  obtain ⟨hrunning, hready⟩ := Prod.mk.inj hobs
  refine ⟨c, ?_, hrunning, hready⟩
  have hexec : ∀ a b cmd rest, a.stack = cmd :: rest →
      exec LanTx.subclass (txEnv descs) { a with stack := rest } cmd = .ok b → (txRing 0x1000 4).step a b :=
    fun a b cmd rest hs he => .exec (txEnv descs) cmd rest hs he
  obtain ⟨d, hd', hrun⟩ := bind_ok hrun
  split at hrun
  · rename_i hrest
    have hr := Reachable.cascade hexec (.start freshTx_start) hd'
    exact Reachable.cascade hexec (.step hr (.tail _ hd (List.isEmpty_iff.mp hrest.1) rfl)) hrun
  · cases hrun

end

/-- A TSO context descriptor with MSS 1000, and 2000 bytes with headers of 14, 20 and 20 bytes. -/
theorem tx_buffer_bounds_tso : ∃ c, (txRing 0x1000 4).Reachable c ∧ (view c).running = true ∧
    (view c).ready.map Segment.d1 = [0xFA0000000000011, 0x1F4142870010] ∧
    ∀ op ∈ packetOps (fun _ => false) (view c).tso (view c).ready, op.Sound := by
  obtain ⟨c, hc, hrun, hready⟩ := @txRing_postTx [(0, 0xFA0000000000011), (0x2000, 0x1F4142870010)] 9
    [0xFA0000000000011, 0x1F4142870010] (by decide) (by decide +kernel)
  refine ⟨c, hc, hrun, hready, ((tx_buffer_bounds 0x1000 4).1 _ ((tx_buffer_bounds 0x1000 4).2 _ hc) _).1.mpr ?_⟩
  obtain ⟨x, l, hxs, hx, hl⟩ := List.map_eq_cons_iff.mp hready
  obtain ⟨e, rfl, he⟩ := List.map_eq_singleton_iff.mp hl
  rw [hxs]
  intro y inner e' rest hu
  obtain ⟨rfl, rfl, rfl⟩ := (unitAt_pair (x := x) (e := e) (by rw [hx]; decide) (by
    unfold Last
    rw [he]
    decide)).unique hu
  unfold UnitFits
  rw [lead, if_pos (by rw [hx]; decide), hx, mtu_eq]
  simp only [List.nil_append, bufSzSum, List.map_cons, List.map_nil, he]
  exact .inr (by decide)

/-- Over 9024 bytes of headers and payload in the first segment, and a packet that is shorter than the headers
in front of its TCP checksum. -/
theorem tx_buffer_overrun :
    (∃ c, (txRing 0x1000 4).Reachable c ∧ (view c).running = true ∧
      (view c).ready.map Segment.d1 = [0x9C40000000000011, 0xBB8142870010] ∧
      ∃ op ∈ packetOps (fun _ => false) (view c).tso (view c).ready, ¬op.Sound) ∧
    ∃ c, (txRing 0x1000 4).Reachable c ∧ (view c).running = true ∧ (view c).ready.map Segment.d1 = [0x2942871010] ∧
      ∃ op ∈ packetOps (fun _ => false) (view c).tso (view c).ready, ¬op.Sound := by
  have hnot : ∀ s, sender.Reachable s → ¬PacketFits (fun _ => false) s.tso s.ready →
      ∃ op ∈ packetOps (fun _ => false) s.tso s.ready, ¬op.Sound := by
    intro s hs hfits
    have h := mt ((Steady.reachable hs).sound_iff _).mp hfits
    push Not at h
    exact h
  refine ⟨?_, ?_⟩
  · obtain ⟨c, hc, hrun, hready⟩ := @txRing_postTx [(0, 0x9C40000000000011), (0x2000, 0xBB8142870010)] 10
      [0x9C40000000000011, 0xBB8142870010] (by decide) (by decide +kernel)
    refine ⟨c, hc, hrun, hready, hnot _ (view_reachable hc).1 fun hfits => ?_⟩
    obtain ⟨x, l, hxs, hx, hl⟩ := List.map_eq_cons_iff.mp hready
    obtain ⟨e, rfl, he⟩ := List.map_eq_singleton_iff.mp hl
    rw [hxs] at hfits
    have h := hfits x [] e [] (unitAt_pair (by rw [hx]; decide) (by
      unfold Last
      rw [he]
      decide))
    unfold UnitFits at h
    rw [lead, if_pos (by rw [hx]; decide), hx, mtu_eq] at h
    simp only [List.nil_append, bufSzSum, List.map_cons, List.map_nil, he] at h
    rcases h with h | h
    · exact absurd (h.2.2 0 (by simp)) (by simp)
    · revert h
      decide
  · obtain ⟨c, hc, hrun, hready⟩ := @txRing_postTx [(0x2000, 0x2942871010)] 6 [0x2942871010] (by decide)
      (by decide +kernel)
    refine ⟨c, hc, hrun, hready, hnot _ (view_reachable hc).1 fun hfits => ?_⟩
    obtain ⟨e, hes, he⟩ := List.map_eq_singleton_iff.mp hready
    rw [hes] at hfits
    have h := hfits e [] e [] (unitAt_single (by
      unfold Last
      rw [he]
      decide))
    unfold UnitFits at h
    rw [lead, if_neg (by rw [he]; decide), mtu_eq] at h
    simp only [List.nil_append, bufSzSum, List.map_cons, List.map_nil, he] at h
    revert h
    decide

end Vmux.TxBounds
