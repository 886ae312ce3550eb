import Vmux.TxByteExact

namespace Vmux.TxFrames

open Bytes CircularWindow Transitions DescriptorQueue LanTx TxUnits TxDelivery TxPlain TxByteExact

section

variable {ε ι σ κ : Type} {S : Subclass ε ι σ κ} {env : Env ε} {c c' : Config σ κ} {cmd : Cmd κ} {rest : List (Cmd κ)}

theorem exec_held (hi : Inv S c) (hs : c.stack = cmd :: rest)
    (he : exec S env { c with stack := rest } cmd = .ok c') (hq : Quiet cmd { c with stack := rest } c') {p : Slot}
    (hp : p ∈ S.held c.client) :
    descOf c'.q.ctxs p = descOf c.q.ctxs p ∧ dataOf c'.q.ctxs p = dataOf c.q.ctxs p := by
  have hne : ∀ r s, (r, s) ∈ cmd.claims → p ≠ r := by
    intro r s hc
    exact ((hi.running hs).unclaimed (D := fun x => x = r) fun x hx => .inr ⟨s, hx ▸ hc⟩).2 p hp
  have hrange : ∀ (q : QueueBase) first cnt (f : ℕ → DescCtx → DescCtx), (∀ i x, (f i x).desc = x.desc) →
      (∀ i x, (f i x).data = x.data) → descOf (update q.ctxs first cnt f) p = descOf q.ctxs p ∧
        dataOf (update q.ctxs first cnt f) p = dataOf q.ctxs p := by
    intro q first cnt f hd hb
    obtain ⟨h1, h2⟩ := contents_update q first cnt f hd hb
    exact ⟨congr_fun h1 p, congr_fun h2 p⟩
  cases cmd with
  | triggerFetch =>
    rcases triggerFetch_ok (c := { c with stack := rest }) hi.enabled he with ⟨-, rfl⟩ | ⟨-, -, rfl⟩
    · exact ⟨rfl, rfl⟩
    · exact hrange _ _ _ _ (fun _ _ => rfl) fun _ _ => rfl
  | triggerProcess =>
    cases he
    rw [triggerProcess_eq (c := { c with stack := rest }) hi.enabled]
    exact ⟨rfl, rfl⟩
  | triggerWriteback =>
    rcases triggerWriteback_ok (c := { c with stack := rest }) hi.enabled he with ⟨-, rfl⟩ | ⟨-, rfl⟩
    · exact ⟨rfl, rfl⟩
    · exact hrange _ _ _ _ (fun _ _ => rfl) fun _ _ => rfl
  | processLoop i j =>
    rw [(hq.cmd.2 i j rfl).1]
    exact ⟨rfl, rfl⟩
  | fetchDone pos cnt i buf =>
    rcases fetchDone_ok he with ⟨-, rfl⟩ | ⟨hlt, r, d, q, rfl, rfl, rfl, hcase⟩
    · exact ⟨rfl, rfl⟩
    have hn := hne (slot maxActiveDescs (pos + i)) .fetching (mem_rangeClaims.mpr ⟨⟨i, le_rfl, by omega, rfl⟩, rfl⟩)
    rcases hcase with ⟨-, rfl⟩ | ⟨addr, len, -, rfl⟩
    · simp only [descOf, dataOf, QueueBase.setState, modify_of_ne _ _ hn, and_self]
    · simp only [descOf, dataOf, modify_of_ne _ _ hn, and_self]
  | dataFetch r addr off total =>
    have hn := hne r .preparing (by simp [Cmd.claims])
    obtain ⟨n, q, -, rfl, ⟨-, rfl⟩ | ⟨-, rfl⟩⟩ := dataFetch_ok he
    · simp only [descOf, dataOf, modify_of_ne _ _ hn, and_self]
    · simp only [descOf, dataOf, QueueBase.setState, modify_of_ne _ _ hn, and_self]
  | dataWritten r =>
    have hn := hne r .processing (by simp [Cmd.claims])
    rw [dataWritten_ok he]
    simp only [descOf, dataOf, QueueBase.setState, modify_of_ne _ _ hn, and_self]
  | writebackDone pos n =>
    rw [(writebackDone_ok (c := { c with stack := rest }) hi.enabled he).2]
    obtain ⟨h1, h2⟩ := hrange c.q pos n (fun _ x => { x with state := .writtenBack }) (fun _ _ => rfl) fun _ _ => rfl
    obtain ⟨h3, h4⟩ := hrange (c.q.markRange pos n .writtenBack) (c.q.markRange pos n .writtenBack).activeFirstPos
      (c.q.markRange pos n .writtenBack).bumpCnt (fun _ x => { x with state := .empty }) (fun _ _ => rfl) fun _ _ => rfl
    exact ⟨h3.trans h1, h4.trans h2⟩
  | resume k => cases hq.cmd.1

end

/-- A transmit queue, and the descriptors that were given to `process()` with their data. -/
structure Handed where
  c : Config TxClient Unit
  given : List Segment

def givenNow (c : Config TxClient Unit) : Cmd Unit → List Segment
  | .processLoop i j =>
    if i + j < c.q.activeCnt ∧ c.q.stateAt (c.q.activeFirstPos + (i + j)) = .prepared then
      [segment (c.q.ctx (c.q.activeFirstPos + (i + j)))]
    else []
  | _ => []

inductive HandedStep (s : Handed) : Handed → Prop
  | exec {c' : Config TxClient Unit} (env : Env TxEnv) (cmd : Cmd Unit) (rest : List (Cmd Unit))
      (hs : s.c.stack = cmd :: rest) (h : exec LanTx.subclass env { s.c with stack := rest } cmd = .ok c') :
      HandedStep s ⟨c', s.given ++ givenNow s.c cmd⟩
  | tail (t : ℕ) (ht : t < 0x100000000) (hs : s.c.stack = []) : HandedStep s ⟨tailWrite s.c t, s.given⟩

/-- `trigger_tx` is about to call `trigger_tx_packet`. -/
def About (c : Config TxClient Unit) : Prop := ∃ rest, c.stack = .resume () :: rest

/-- Runs that start without a unit under way and have only units that are copied whole. -/
def plainQueue (base len : ℕ) : Machine Handed where
  start s := Enabled LanTx.subclass base len s.c ∧ s.given = [] ∧ s.c.client.tso.tsoOff = 0 ∧ s.c.client.tso.tsoLen = 0
  step s s' := HandedStep s s' ∧ ∀ u : TxUnit, About s.c → ready s.c = u.segs → Plain u ∧ Copied u

def Incomplete : List Segment → Prop
  | [] => True
  | s :: rest => ∀ x ∈ (s :: rest).drop (lead s).dSkip, cmdEop x.d1 = false

/-- What was given to `process()` are complete units, for each of which one frame was sent, and the
beginning of one more. -/
structure SentSoFar (s : Handed) (units : List TxUnit) : Prop where
  units_ok : ∀ u ∈ units, Plain u ∧ Copied u
  given_eq : s.given = units.flatMap TxUnit.segs ++ ready s.c
  calls_eq : calls s.c.log = units.map fun u => .ethSend (gathered u)
  off : s.c.client.tso.tsoOff = 0
  len : s.c.client.tso.tsoLen = 0
  waiting : Incomplete (ready s.c) ∨ About s.c ∧ ∃ pre x, Incomplete pre ∧ ready s.c = pre ++ [x]

theorem eopScan_none {segs : List Segment} {r r' : EopScan} (hr : r.eop = false) (h : eopScan segs r = .ok r')
    (hr' : r'.eop = false) : ∀ x ∈ segs, cmdEop x.d1 = false := by
  induction segs generalizing r with
  | nil => simp
  | cons s rest ih =>
    rw [eopScan, hr, if_neg (by decide)] at h
    split at h
    · cases h
    · cases he : cmdEop s.d1 with
      | true =>
        rw [eopScan_eop rest (show (r.next s.d1).eop = true from he)] at h
        cases h
        rw [show (r.next s.d1).eop = true from he] at hr'
        cases hr'
      | false => exact List.forall_mem_cons.mpr ⟨he, ih he h⟩

theorem incomplete_of_none {accept : ℕ → Bool} {t : TsoState} {segs : List Segment}
    (h : triggerTxPacket accept t segs = .ok none) : Incomplete segs := by
  cases segs with
  | nil => trivial
  | cons s rest =>
    obtain ⟨r, hr, h⟩ := bind_ok h
    split at h
    · rename_i heop
      exact eopScan_none rfl hr (by simpa using heop)
    · obtain ⟨x, -, h⟩ := bind_ok h
      cases h

theorem exists_unit {accept : ℕ → Bool} {t : TsoState} {pre : List Segment} {x : Segment} {sent : Sent}
    (hpre : Incomplete pre) (hfull : ∀ s ∈ pre ++ [x], dtype s.d1 = dtypeData → Full s)
    (h : triggerTxPacket accept t (pre ++ [x]) = .ok (some sent)) : ∃ u : TxUnit, pre ++ [x] = u.segs := by
  obtain ⟨s, tail, inner, e, rest, hseg, hd, hin, he, -⟩ := triggerTxPacket_sent h
  have hskip : (lead s).dSkip = 0 ∨ (lead s).dSkip = 1 ∧ dtype s.d1 = dtypeCtx := by
    unfold lead
    split
    · exact .inr ⟨rfl, ‹_›⟩
    · exact .inl rfl
  -- the EOP descriptor is the last one, since none of those before has the bit
  have hnil : rest = [] := by
    by_contra hne
    have hmem : e ∈ pre.drop (lead s).dSkip := by
      rw [← List.dropLast_append_getLast hne] at hd
      have hlen := congrArg List.length hd
      simp only [List.length_drop, List.length_append, List.length_cons, List.length_nil] at hlen
      rw [List.drop_append_of_le_length (by omega), ← List.cons_append, ← List.append_assoc] at hd
      rw [(List.append_inj' hd rfl).1]
      simp
    cases pre with
    | nil => simp at hmem
    | cons y pre =>
      obtain ⟨rfl, -⟩ := List.cons.inj hseg
      have heop := he.2
      rw [hpre e hmem] at heop
      cases heop
  subst hnil
  have hdata : ∀ y ∈ inner ++ [e], Full y := by
    intro y hy
    have hm : y ∈ pre ++ [x] := List.mem_of_mem_drop (hd ▸ hy)
    refine hfull y hm ?_
    rcases List.mem_append.mp hy with hy | hy
    · exact (hin y hy).1
    · rw [List.mem_singleton.mp hy]
      exact he.1
  rcases hskip with h0 | ⟨h1, hctx⟩
  · rw [h0, List.drop_zero] at hd
    exact ⟨⟨none, inner, e, by simp, hin, he, hdata⟩, hd⟩
  · rw [h1, hseg, List.drop_one, List.tail_cons] at hd
    refine ⟨⟨some s, inner, e, ?_, hin, he, hdata⟩, ?_⟩
    · rintro _ ⟨⟩
      exact hctx
    · rw [hseg, hd]
      rfl

theorem not_incomplete {accept : ℕ → Bool} {t : TsoState} {segs : List Segment} {sent : Sent}
    (h : triggerTxPacket accept t segs = .ok (some sent)) : ¬Incomplete segs := by
  intro hin
  obtain ⟨s, tail, inner, e, rest, rfl, hd, -, he, -⟩ := triggerTxPacket_sent h
  have hmem : e ∈ (s :: tail).drop (lead s).dSkip := by
    rw [hd]
    simp
  have heop := he.2
  rw [hin e hmem] at heop
  cases heop

variable {s s' : Handed} {base len : ℕ} {units : List TxUnit}

theorem HandedStep.queueStep (h : HandedStep s s') : QueueStep LanTx.subclass s.c s'.c := by
  cases h with
  | exec env cmd rest hs h => exact .exec env cmd rest hs h
  | tail t ht hs => exact .tail t ht hs rfl

theorem reachable_machine (h : (plainQueue base len).Reachable s) : (machine LanTx.subclass base len).Reachable s.c := by
  refine h.project Handed.c (fun s hs => ?_) fun s t hs => ?_
  · exact hs.1
  · exact .inr hs.1.queueStep

theorem segment_congr {x y : DescCtx} (hd : x.desc = y.desc) (hb : x.data = y.data) :
    LanTx.segment x = LanTx.segment y := by
  rw [LanTx.segment, LanTx.segment, hd, hb]

theorem ready_quiet (hi : Inv LanTx.subclass c) (hs : c.stack = cmd :: rest)
    (he : exec LanTx.subclass env { c with stack := rest } cmd = .ok c') (hq : Quiet cmd { c with stack := rest } c') :
    ready c' = ready c := by
  have hclient : c'.client = c.client := hq.client
  rw [ready, ready, hclient]
  apply List.map_congr_left
  intro p hp
  obtain ⟨hd, hb⟩ := exec_held hi hs he hq hp
  exact segment_congr hd hb

theorem ready_process {i j : ℕ} (he : processLoop LanTx.subclass env { c with stack := rest } i j = .ok c')
    (hlt : i + j < c.q.activeCnt) (hst : c.q.stateAt (c.q.activeFirstPos + (i + j)) = .prepared) :
    c'.client = (LanTx.process c.client (slot maxActiveDescs (c.q.activeFirstPos + (i + j)))).client ∧
      c'.stack = .resume () :: .processLoop i (j + 1) :: rest ∧ calls c'.log = calls c.log ∧
      ready c' = ready c ++ [segment (c.q.ctx (c.q.activeFirstPos + (i + j)))] := by
  rcases processLoop_ok he with ⟨hn, -⟩ | ⟨-, -, p, q, e, rfl, rfl, hpr, ha⟩
  · exact absurd ⟨hlt, hst⟩ hn
  cases hpr
  obtain ⟨hd, hb⟩ := applyEffect_contents ha
  have ha := applyEffect_applied ha
  have hd : descOf c'.q.ctxs = descOf c.q.ctxs := hd.trans (descOf_setState _ _ _)
  have hb : dataOf c'.q.ctxs = dataOf c.q.ctxs := hb.trans (dataOf_setState _ _ _)
  have hseg : ∀ p, segment (c'.q.ctxs p) = segment (c.q.ctxs p) := fun p =>
    segment_congr (congr_fun hd p) (congr_fun hb p)
  have hsegs : c'.client.readySegments = c.client.readySegments ++ [slot maxActiveDescs (c.q.activeFirstPos + (i + j))] := by
    rw [ha.client]
    rfl
  refine ⟨ha.client, ha.stack, ?_, ?_⟩
  · rw [ha.calls]
    simp [calls, LanTx.process]
  · rw [ready, hsegs, List.map_append, List.map_singleton, hseg]
    simp only [hseg]
    rfl

theorem SentSoFar.start (h : (plainQueue base len).start s) : SentSoFar s [] := by
  obtain ⟨he, hgiven, hoff, hlen⟩ := h
  have hnil : s.c.client.readySegments = [] := he.held
  have hready : ready s.c = [] := by rw [ready, hnil, List.map_nil]
  have hcalls : calls s.c.log = [] := by
    rw [he.log]
    rfl
  refine ⟨by simp, ?_, hcalls, hoff, hlen, ?_⟩
  · rw [hgiven, hready]
    rfl
  · rw [hready]
    exact .inl trivial

variable {env : Env TxEnv} {c' : Config TxClient Unit} {cmd : Cmd Unit} {rest : List (Cmd Unit)}

theorem SentSoFar.quiet (h : SentSoFar s units) (hi : Inv LanTx.subclass s.c) (hs : s.c.stack = cmd :: rest)
    (he : exec LanTx.subclass env { s.c with stack := rest } cmd = .ok c')
    (hq : Quiet cmd { s.c with stack := rest } c') : SentSoFar ⟨c', s.given ++ givenNow s.c cmd⟩ units := by
  have hclient : c'.client = s.c.client := hq.client
  have hready := ready_quiet hi hs he hq
  have hgiven : givenNow s.c cmd = [] := by
    cases cmd with
    | processLoop i j => exact if_neg (hq.cmd.2 i j rfl).2
    | _ => rfl
  refine ⟨h.units_ok, ?_, ?_, ?_, ?_, ?_⟩
  · dsimp only
    rw [hgiven, List.append_nil, hready, h.given_eq]
  · exact hq.calls.trans h.calls_eq
  · exact (congrArg (fun x => x.tso.tsoOff) hclient).trans h.off
  · exact (congrArg (fun x => x.tso.tsoLen) hclient).trans h.len
  · rcases h.waiting with hin | ⟨⟨rest', hres⟩, -⟩
    · left
      dsimp only
      rwa [hready]
    · rw [hs] at hres
      cases hres
      cases hq.cmd.1

theorem SentSoFar.process {i j : ℕ} (h : SentSoFar s units)
    (hs : s.c.stack = .processLoop i j :: rest)
    (he : processLoop LanTx.subclass env { s.c with stack := rest } i j = .ok c')
    (hlt : i + j < s.c.q.activeCnt) (hst : s.c.q.stateAt (s.c.q.activeFirstPos + (i + j)) = .prepared) :
    SentSoFar ⟨c', s.given ++ givenNow s.c (.processLoop i j)⟩ units := by
  obtain ⟨hclient, hstack, hcalls, hready⟩ := ready_process he hlt hst
  have hgiven : givenNow s.c (.processLoop i j) = [segment (s.c.q.ctx (s.c.q.activeFirstPos + (i + j)))] :=
    if_pos ⟨hlt, hst⟩
  refine ⟨h.units_ok, ?_, ?_, ?_, ?_, ?_⟩
  · dsimp only
    rw [hgiven, hready, h.given_eq, List.append_assoc]
  · exact hcalls.trans h.calls_eq
  · rw [hclient]
    exact h.off
  · rw [hclient]
    exact h.len
  · rcases h.waiting with hin | ⟨⟨rest', hres⟩, -⟩
    · exact .inr ⟨⟨_, hstack⟩, _, _, hin, hready⟩
    · rw [hs] at hres
      cases hres

theorem SentSoFar.resume (h : SentSoFar s units) (hr : (plainQueue base len).Reachable s)
    (hgood : ∀ u : TxUnit, About s.c → ready s.c = u.segs → Plain u ∧ Copied u) (hs : s.c.stack = .resume () :: rest)
    (he : exec LanTx.subclass env { s.c with stack := rest } (.resume ()) = .ok c') :
    ∃ units', SentSoFar ⟨c', s.given ++ givenNow s.c (.resume ())⟩ units' := by
  have hgiven : s.given ++ givenNow s.c (.resume ()) = s.given := List.append_nil _
  rw [hgiven]
  rcases packetStep_cases hs ⟨env, rest, hs, he⟩ with ⟨accept, hp, rfl⟩ | ⟨accept, sent, ht⟩
  · exact ⟨units, h.units_ok, h.given_eq, h.calls_eq, h.off, h.len, .inl (incomplete_of_none hp)⟩
  obtain ⟨orig, hc⟩ := @reachable_contents (fun _ => 0) _ _ _ (reachable_machine hr)
  -- the last descriptor that came completes a unit
  obtain ⟨u, hu⟩ : ∃ u : TxUnit, ready s.c = u.segs := by
    rcases h.waiting with hin | ⟨-, pre, x, hin, hready⟩
    · exact absurd hin (not_incomplete ht.packet)
    · have hpacket := ht.packet
      rw [hready] at hpacket ⊢
      refine exists_unit hin (fun y hy hd => ?_) hpacket
      rw [← hready] at hy
      exact (ready_brought hc hy hd).1
  obtain ⟨hplain, hcopied⟩ := hgood u ⟨rest, hs⟩ hu
  have hcomplete : Complete u s.c := ⟨⟨rest, hs⟩, h.off, h.len, hu⟩
  obtain ⟨b, hp⟩ := hcomplete.packet hplain accept
  obtain rfl := Option.some.inj (Except.ok.inj (hp.symm.trans ht.packet))
  have hready : ready c' = [] := by
    rw [ready, ht.segments, (hcomplete.popped_iff hplain).mpr hcopied, List.map_nil]
  refine ⟨units ++ [u], ?_, ?_, ?_, ?_, ?_, ?_⟩
  · intro v hv
    rcases List.mem_append.mp hv with hv | hv
    · exact h.units_ok v hv
    · rw [List.mem_singleton.mp hv]
      exact ⟨hplain, hcopied⟩
  · dsimp only
    rw [hready, h.given_eq, hu]
    simp
  · rw [List.map_append, ← h.calls_eq, List.map_singleton, ← gathered_eq hcopied.tags]
    exact ht.calls_eq
  · exact congrArg TsoState.tsoOff ht.tso
  · exact congrArg TsoState.tsoLen ht.tso
  · left
    dsimp only
    rw [hready]
    trivial

theorem SentSoFar.tail (h : SentSoFar s units) (hs : s.c.stack = []) (t : ℕ) :
    SentSoFar ⟨tailWrite s.c t, s.given⟩ units := by
  refine ⟨h.units_ok, h.given_eq, h.calls_eq, h.off, h.len, ?_⟩
  rcases h.waiting with hin | ⟨⟨rest', hres⟩, -⟩
  · exact .inl hin
  · rw [hs] at hres
    cases hres

theorem sentSoFar (h : (plainQueue base len).Reachable s) : ∃ units, SentSoFar s units := by
  induction h with
  | start h => exact ⟨[], SentSoFar.start h⟩
  | @step s s' hr h ih =>
    obtain ⟨units, ih⟩ := ih
    obtain ⟨hstep, hgood⟩ := h
    have hi := Inv.reachable (reachable_machine hr)
    cases hstep with
    | exec env cmd rest hs h =>
      rcases exec_subclass (c := { s.c with stack := rest }) hi.enabled h with
        hq | ⟨i, j, p, e, rfl, -, hlt, hst, -⟩ | ⟨k, e, rfl, -⟩
      · exact ⟨units, ih.quiet hi hs h hq⟩
      · exact ⟨units, ih.process hs h hlt hst⟩
      · exact ih.resume hr hgood hs h
    | tail t ht hs => exact ⟨units, ih.tail hs t⟩

theorem complete_of_ready {c : Config TxClient Unit} {inner : List ℕ} {last : ℕ}
    (hr : (machine LanTx.subclass base len).Reachable c) (hs : About c) (hoff : c.client.tso.tsoOff = 0)
    (hlen : c.client.tso.tsoLen = 0) (hready : (ready c).map Segment.d1 = inner ++ [last])
    (hinner : ∀ d ∈ inner, dtype d = dtypeData ∧ cmdEop d = false)
    (hlast : dtype last = dtypeData ∧ cmdEop last = true) :
    ∃ u : TxUnit, Complete u c ∧ u.ctx = none ∧ u.inner.map Segment.d1 = inner ∧ u.last.d1 = last := by
  obtain ⟨orig, hc⟩ := @reachable_contents (fun _ => 0) _ _ _ hr
  obtain ⟨xs, ys, heq, rfl, hys⟩ := List.map_eq_append_iff.mp hready
  obtain ⟨e, rfl, rfl⟩ := List.map_eq_singleton_iff.mp hys
  have hin : ∀ s ∈ xs, dtype s.d1 = dtypeData ∧ cmdEop s.d1 = false := fun s hs => hinner _ (List.mem_map_of_mem hs)
  have hfull : ∀ s ∈ xs ++ [e], Full s := by
    intro s hm
    rw [← heq] at hm
    refine (ready_brought hc hm ?_).1
    rw [heq] at hm
    rcases List.mem_append.mp hm with hm | hm
    · exact (hin s hm).1
    · rw [List.mem_singleton.mp hm]
      exact hlast.1
  exact ⟨⟨none, xs, e, by simp, hin, hlast, hfull⟩, ⟨hs, hoff, hlen, heq⟩, rfl, rfl, rfl⟩

def txMem (descs : List (ℕ × ℕ)) (a : ℕ) : UInt8 :=
  (descs.flatMap fun d => leBytes 8 d.1 ++ leBytes 8 d.2).getD (a - 0x1000) 0

def txEnv (descs : List (ℕ × ℕ)) : Env TxEnv := ⟨txMem descs, fun _ _ => true, ⟨fun _ => true⟩⟩

def freshTx : Config TxClient Unit := Config.enabled 0x1000 4 16 ⟨⟨0, 0, List.replicate mtu 0⟩, [], false, 0⟩

def postTx (descs : List (ℕ × ℕ)) (n : ℕ) : Except Fault (Config TxClient Unit) := do
  let c ← cascade LanTx.subclass (txEnv descs) 4 freshTx
  if c.stack.isEmpty ∧ ∀ p, c.q.states p = .empty then
    cascade LanTx.subclass (txEnv descs) n (tailWrite c descs.length)
  else .error .abort

theorem reachable_postTx {descs : List (ℕ × ℕ)} {n : ℕ} {c : Config TxClient Unit} (hd : descs.length < 0x100000000)
    (h : postTx descs n = .ok c) : (txQueue (txMem descs) Set.univ 0x1000 4).Reachable c := by
  obtain ⟨d, hrun, h⟩ := bind_ok h
  split at h
  · rename_i hrest
    have hstack : d.stack = [] := List.isEmpty_iff.mp hrest.1
    have hm : (machine LanTx.subclass 0x1000 4).Reachable d :=
      Reachable.cascade (fun _ _ cmd rest hs he => .exec _ cmd rest hs he)
        (Reachable.enabled 16 (by decide) (by decide) rfl) hrun
    have hstart : (txQueue (txMem descs) Set.univ 0x1000 4).start d :=
      ⟨hm, hstack, fun p hp => absurd (hrest.2 p) hp⟩
    exact Reachable.cascade (fun _ _ cmd rest hs he => .exec _ cmd rest (fun _ _ => rfl) hs he)
      (.step (.start hstart) (.tail _ hd hstack rfl)) h
  · cases h

theorem postTx_complete {descs : List (ℕ × ℕ)} {n : ℕ} (inner : List ℕ) (last : ℕ) (hd : descs.length < 0x100000000)
    (h : (postTx descs n).toOption.map (fun c => (c.stack.head?.map Cmd.isResume, c.client.tso.tsoOff,
      c.client.tso.tsoLen, (ready c).map Segment.d1)) = some (some true, 0, 0, inner ++ [last]))
    (hinner : ∀ d ∈ inner, dtype d = dtypeData ∧ cmdEop d = false)
    (hlast : dtype last = dtypeData ∧ cmdEop last = true) :
    ∃ c u, (txQueue (txMem descs) Set.univ 0x1000 4).Reachable c ∧ Complete u c ∧ u.ctx = none ∧
      u.inner.map Segment.d1 = inner ∧ u.last.d1 = last := by
  obtain ⟨c, hrun, hobs⟩ := ok_of_map h
  simp only [Prod.mk.injEq] at hobs
  obtain ⟨hres, hoff, hlen, hready⟩ := hobs
  have hr := reachable_postTx hd hrun
  have hs : About c := by
    cases hst : c.stack with
    | nil => simp [hst] at hres
    | cons cmd rest =>
      cases cmd with
      | resume k => exact ⟨rest, hst⟩
      | _ => simp [hst, Cmd.isResume] at hres
  obtain ⟨u, hu⟩ := complete_of_ready (TxByteExact.reachable_machine hr) hs hoff hlen hready hinner hlast
  exact ⟨c, u, hr, hu⟩

def onlyReady (d : ℕ) (c : Config TxClient Unit) : Bool := (ready c).all fun s => s.d1 = d

/-- Run up to `n` pending commands, as long as only such descriptors are ready. -/
def deliver (env : Env TxEnv) (d : ℕ) : ℕ → Handed → Option Handed
  | 0, s => some s
  | n + 1, s =>
    match s.c.stack with
    | [] => some s
    | cmd :: rest =>
      if onlyReady d s.c then
        match exec LanTx.subclass env { s.c with stack := rest } cmd with
        | .ok c' => deliver env d n ⟨c', s.given ++ givenNow s.c cmd⟩
        | .error _ => none
      else none

theorem reachable_deliver {d n : ℕ} (hd : dtype d = dtypeData ∧ cmdEop d = true)
    (hl : cmdL4t d ≠ l4tTcp ∧ cmdL4t d ≠ l4tUdp) (h0 : txBufSz d ≠ 0) (hm : txBufSz d ≤ mtu)
    (hs : (plainQueue base len).Reachable s) (h : deliver env d n s = some s') : (plainQueue base len).Reachable s' := by
  induction n generalizing s with
  | zero =>
    cases h
    exact hs
  | succ n ih =>
    rw [deliver] at h
    split at h
    · cases h
      exact hs
    rename_i cmd rest hst
    split at h
    · rename_i hall
      split at h
      · rename_i c' he
        refine ih (.step hs ⟨.exec env cmd rest hst he, fun u _ hu => ?_⟩) h
        have hd1 : ∀ x ∈ u.segs, x.d1 = d := by
          rw [← hu]
          simpa [onlyReady] using hall
        have hlast : u.last.d1 = d := hd1 _ (by simp [TxUnit.segs, TxUnit.data])
        have hinner : u.inner = [] := by
          refine List.eq_nil_iff_forall_not_mem.mpr fun x hx => ?_
          have heop := (u.inner_data x hx).2
          rw [hd1 x (by simp [TxUnit.segs, TxUnit.data, hx]), hd.2] at heop
          cases heop
        have hctx : u.ctx = none := by
          refine Option.eq_none_iff_forall_not_mem.mpr fun x hx => ?_
          have htype := u.ctx_dtype x hx
          rw [hd1 x (by simp [TxUnit.segs, Option.mem_def.mp hx]), hd.1] at htype
          revert htype
          decide
        refine ⟨⟨by simp [TxUnit.lead, hctx], hlast ▸ hl, ?_⟩, by simp [hinner], hlast ▸ h0⟩
        simpa [TxUnit.data, hinner, bufSzSum, hlast] using hm
      · cases h
    · cases h

def deliverOne (env : Env TxEnv) (d n : ℕ) : Option Handed :=
  (deliver env d 4 ⟨freshTx, []⟩).bind fun s =>
    if s.c.stack.isEmpty then deliver env d n ⟨tailWrite s.c 1, s.given⟩ else none

theorem reachable_deliverOne {d n : ℕ} (hd : dtype d = dtypeData ∧ cmdEop d = true)
    (hl : cmdL4t d ≠ l4tTcp ∧ cmdL4t d ≠ l4tUdp) (h0 : txBufSz d ≠ 0) (hm : txBufSz d ≤ mtu)
    (h : deliverOne env d n = some s) : (plainQueue 0x1000 4).Reachable s := by
  obtain ⟨r, hr, h⟩ := Option.bind_eq_some_iff.mp h
  split at h
  · rename_i hrest
    have hstack : r.c.stack = [] := List.isEmpty_iff.mp hrest
    have hstart : (plainQueue 0x1000 4).Reachable ⟨freshTx, []⟩ :=
      .start ⟨⟨rfl, rfl, rfl, by decide, by decide, rfl, rfl, rfl, fun _ => rfl, rfl, rfl, rfl⟩, rfl, rfl, rfl⟩
    refine reachable_deliver hd hl h0 hm (.step (reachable_deliver hd hl h0 hm hstart hr) ⟨.tail 1 (by decide) hstack, ?_⟩) h
    rintro u ⟨rest, habout⟩
    rw [hstack] at habout
    cases habout
  · cases h

/-- A unit without TSO and checksum offload is sent as the one frame that its descriptors describe
exactly when the whole of it is copied, and nothing is sent before its EOP descriptor was processed. -/
theorem plain_units_byte_exact (mem : ℕ → UInt8) (kept : Set ℕ) (base len : ℕ) :
    (∀ c u, (txQueue mem kept base len).Reachable c → Complete u c → Plain u → Kept kept u →
      (SendsExactly mem u c ↔ Copied u)) ∧
      ∀ s, (plainQueue base len).Reachable s → ∃ units, SentSoFar s units :=
  ⟨fun _ _ hr h hu hk => h.sendsExactly_iff hu hr hk, fun _ h => sentSoFar h⟩

/-- A descriptor of two bytes, and one of four bytes with EOP. -/
theorem plain_units_byte_exact_two : ∃ c u,
    (txQueue (txMem [(0x2000, 0x800000000), (0x2100, 0x1000000010)]) Set.univ 0x1000 4).Reachable c ∧
    Complete u c ∧ Plain u ∧ u.data.map Segment.d1 = [0x800000000, 0x1000000010] ∧
    SendsExactly (txMem [(0x2000, 0x800000000), (0x2100, 0x1000000010)]) u c ∧
    ∃ s units, (plainQueue 0x1000 4).Reachable s ∧ s.given.length = 1 ∧ ready s.c = [] ∧ SentSoFar s units := by
  obtain ⟨c, u, hr, hu, hctx, hin, hlast⟩ := @postTx_complete [(0x2000, 0x800000000), (0x2100, 0x1000000010)] 14
    [0x800000000] 0x1000000010 (by decide) (by decide +kernel) (by decide) (by decide)
  obtain ⟨x, hx, hd⟩ := List.map_eq_singleton_iff.mp hin
  have hplain : Plain u := by
    refine ⟨?_, ?_, ?_⟩
    · simp [TxUnit.lead, hctx]
    · rw [hlast]
      decide
    · simp [TxUnit.data, hx, bufSzSum, hlast, hd]
      norm_num [txBufSz, mtu]
  have hcopied : Copied u := by
    refine ⟨?_, by rw [hlast]; decide⟩
    rw [hx]
    intro y hy
    rw [List.mem_singleton.mp hy, hd]
    decide
  have hrun : (deliverOne (txEnv [(0x2000, 0x1000000010)]) 0x1000000010 8).map (fun s =>
      (s.given.length, (ready s.c).length)) = some (1, 0) := by decide +kernel
  obtain ⟨s, hdel, hobs⟩ := Option.map_eq_some_iff.mp hrun
  have hs := reachable_deliverOne (by decide) (by decide) (by decide) (by norm_num [txBufSz, mtu]) hdel
  rw [Prod.mk.injEq, List.length_eq_zero_iff] at hobs
  obtain ⟨units, hsent⟩ := (plain_units_byte_exact (txMem []) Set.univ 0x1000 4).2 s hs
  refine ⟨c, u, hr, hu, hplain, ?_, ?_, s, units, hs, hobs.1, hobs.2, hsent⟩
  · simp [TxUnit.data, hx, hd, hlast]
  · exact ((plain_units_byte_exact _ Set.univ 0x1000 4).1 c u hr hu hplain fun _ _ _ _ => trivial).mpr hcopied

/-- A descriptor of two bytes with the low bit of L2TAG1 set, and one of two bytes with EOP. -/
theorem tagged_unit_not_exact : ∃ c u,
    (txQueue (txMem [(0x2000, 0x1000800000000), (0x2100, 0x800000010)]) Set.univ 0x1000 4).Reachable c ∧
    Complete u c ∧ Plain u ∧ u.data.map Segment.d1 = [0x1000800000000, 0x800000010] ∧
    ¬SendsExactly (txMem [(0x2000, 0x1000800000000), (0x2100, 0x800000010)]) u c := by
  obtain ⟨c, u, hr, hu, hctx, hin, hlast⟩ := @postTx_complete [(0x2000, 0x1000800000000), (0x2100, 0x800000010)] 15
    [0x1000800000000] 0x800000010 (by decide) (by decide +kernel) (by decide) (by decide)
  obtain ⟨x, hx, hd⟩ := List.map_eq_singleton_iff.mp hin
  have hplain : Plain u := by
    refine ⟨?_, ?_, ?_⟩
    · simp [TxUnit.lead, hctx]
    · rw [hlast]
      decide
    · simp [TxUnit.data, hx, bufSzSum, hlast, hd]
      norm_num [txBufSz, mtu]
  refine ⟨c, u, hr, hu, hplain, ?_, fun hsend => ?_⟩
  · simp [TxUnit.data, hx, hd, hlast]
  · have htag := (hu.copied hplain hsend).tags x (by simp [hx])
    rw [hd] at htag
    revert htag
    decide

end Vmux.TxFrames
