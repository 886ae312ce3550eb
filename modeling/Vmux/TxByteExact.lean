import Vmux.Contents
import Vmux.TxPlain

namespace Vmux.TxByteExact

open Bytes CircularWindow Transitions DescriptorQueue LanTx TxUnits TxDelivery TxPlain

def ready (c : Config TxClient Unit) : List Segment := c.client.readySegments.map fun p => segment (c.q.ctxs p)

/-- A step of a transmit queue whose guest leaves the addresses `kept` as they are in `mem`. -/
inductive TxStep (mem : ℕ → UInt8) (kept : Set ℕ) (c c' : Config TxClient Unit) : Prop
  | exec (env : Env TxEnv) (cmd : Cmd Unit) (rest : List (Cmd Unit)) (hm : ∀ a ∈ kept, env.mem a = mem a)
      (hs : c.stack = cmd :: rest) (h : exec LanTx.subclass env { c with stack := rest } cmd = .ok c')
  | tail (t : ℕ) (ht : t < 0x100000000) (hs : c.stack = []) (h : c' = tailWrite c t)

/-- From any state on in which no descriptor of the queue names one of these addresses yet. -/
def txQueue (mem : ℕ → UInt8) (kept : Set ℕ) (base len : ℕ) : Machine (Config TxClient Unit) where
  start c := (machine LanTx.subclass base len).Reachable c ∧ c.stack = [] ∧
    ∀ p, c.q.states p ≠ .empty → ∀ i < pktLen16 (segment (c.q.ctxs p)).d1, (segment (c.q.ctxs p)).bufAddr + i ∉ kept
  step := TxStep mem kept

/-- One call of `trigger_tx_packet`, as `trigger_tx` makes it. -/
def PacketStep (c c' : Config TxClient Unit) : Prop :=
  ∃ (env : Env TxEnv) (rest : List (Cmd Unit)), c.stack = .resume () :: rest ∧
    exec LanTx.subclass env { c with stack := rest } (.resume ()) = .ok c'

/-- `trigger_tx`, which is about to run, returns. It has sent the one frame of the unit, marked the
descriptors of the unit as processed and no others, and is ready for the next unit. -/
def SendsExactly (mem : ℕ → UInt8) (u : TxUnit) (c : Config TxClient Unit) : Prop :=
  ∃ rest c', c.stack = .resume () :: rest ∧ Relation.ReflTransGen PacketStep c c' ∧ c'.stack = rest ∧
    calls c'.log = calls c.log ++ [.ethSend (frame mem u)] ∧ c'.client.readySegments = [] ∧
    c'.client.tso.tsoOff = 0 ∧ c'.client.tso.tsoLen = 0 ∧
    ∀ p, c'.q.states p = if p ∈ c.client.readySegments then .processed else c.q.states p

/-- What a data fetch has brought to the addresses that the guest leaves alone. -/
def Brought (mem : ℕ → UInt8) (kept : Set ℕ) (addr n : ℕ) (data : List UInt8) : Prop :=
  ∀ i < n, addr + i ∈ kept → data[i]? = some (mem (addr + i))

theorem brought_read {mem : ℕ → UInt8} {kept : Set ℕ} {env : Env TxEnv} {addr off n : ℕ} {data : List UInt8}
    (hm : ∀ a ∈ kept, env.mem a = mem a) (hl : Brought mem kept addr off data) (hle : off + n ≤ data.length) :
    Brought mem kept addr (off + n) (overwrite data off (env.read (addr + off) n)) := by
  intro i hi hk
  have hlen : (env.read (addr + off) n).length = n := readBytes_length _ _ _
  unfold overwrite
  by_cases hoff : i < off
  · rw [List.append_assoc, List.getElem?_append_left (by rw [List.length_take]; omega), List.getElem?_take_of_lt hoff]
    exact hl i hoff hk
  · have htake : (data.take off).length = off := List.length_take_of_le (by omega)
    rw [List.append_assoc, List.getElem?_append_right (by omega), htake,
      List.getElem?_append_left (by omega), Env.read, readBytes, List.getElem?_map, List.getElem?_range (by omega)]
    rw [Option.map_some, show addr + off + (i - off) = addr + i by omega, hm _ hk]

def tracking (mem : ℕ → UInt8) (kept : Set ℕ) : Tracking LanTx.subclass where
  allowed env := ∀ a ∈ kept, env.mem a = mem a
  load := Brought mem kept
  keeps _ o desc data := Ready LanTx.subclass (Brought mem kept) o desc data
  done _ _ _ _ := True
  load_nil _ _ i hi := absurd hi (Nat.not_lt_zero i)
  load_read := brought_read

variable {mem : ℕ → UInt8} {kept : Set ℕ} {env : Env TxEnv} {c c' : Config TxClient Unit} {base len : ℕ}

theorem tracking_processes (s : TxClient) : (tracking mem kept).Processes env s := by
  rintro ctxs p e orig ⟨⟩ - hready hkeeps
  refine ⟨by simp [process], by simp [process], by simp [process, Effect.released], fun r hr => ?_⟩
  change r ∈ s.readySegments ++ [p] at hr
  rcases List.mem_append.mp hr with hr | hr
  · exact hkeeps r hr
  · rw [List.mem_singleton.mp hr]
    exact hready

theorem tracking_resumes (s : TxClient) : (tracking mem kept).Resumes env s () := by
  intro ctxs e orig he hnd hkeeps
  obtain ⟨r, -, he⟩ := bind_ok he
  cases r with
  | none =>
    cases he
    exact ⟨by simp, by simp, by simp [Effect.released], hkeeps⟩
  | some sent =>
    cases he
    refine ⟨?_, by simp, fun p _ => trivial, fun p hp => ?_⟩
    · intro x hx
      obtain ⟨p, hp, rfl⟩ := List.mem_map.mp hx
      exact List.mem_of_mem_take hp
    · -- what stays in `ready_segments` is not among the descriptors that were finished
      change p ∈ s.readySegments.drop sent.popped at hp
      have hnot : ∀ x ∈ (s.readySegments.take sent.popped).map fun r => (r, doneDesc (ctxs r).desc), x.1 ≠ p := by
        intro x hx he
        obtain ⟨r, hr, rfl⟩ := List.mem_map.mp hx
        change r = p at he
        rw [he] at hr
        exact List.disjoint_take_drop hnd le_rfl hr hp
      have hassigned := assigned_of_notMem (f := descOf ctxs) hnot
      change (tracking mem kept).keeps p (orig p) (assigned (descOf ctxs) _ p) (dataOf ctxs p)
      rw [hassigned]
      exact hkeeps p (List.mem_of_mem_drop hp)

theorem reachable_contents (h : (machine LanTx.subclass base len).Reachable c) :
    ∃ orig, Contents (tracking mem ∅) orig c := by
  induction h with
  | start h => exact ⟨fun _ => [], Contents.start h⟩
  | step hr h ih =>
    obtain ⟨orig, hc⟩ := ih
    have hi := Inv.reachable hr
    cases h with
    | exec env cmd rest hs h =>
      exact ⟨_, hc.exec (by simp [tracking]) (tracking_processes _) (fun k _ => tracking_resumes _) hi hs h⟩
    | tail t ht hs h =>
      rw [h]
      exact ⟨orig, hc.tail t⟩
    | receive env x hs h => exact ⟨orig, hc.receive h⟩

theorem prepare_dataFetch {desc : List UInt8} {addr len : ℕ} (h : prepare desc = .dataFetch addr len) :
    addr = bufAddr desc ∧ len = pktLen16 (cmdTypeOffsetBsz desc) := by
  unfold prepare at h
  dsimp only at h
  split at h
  · cases h
    exact ⟨rfl, rfl⟩
  · split at h <;> cases h

theorem contents_start (h : (txQueue mem kept base len).start c) : ∃ orig, Contents (tracking mem kept) orig c := by
  obtain ⟨hr, hs, haway⟩ := h
  obtain ⟨orig, hc⟩ := @reachable_contents mem _ _ _ hr
  have hi := Inv.reachable hr
  have hready : ∀ p, c.q.states p ≠ .empty →
      Ready LanTx.subclass (Brought mem ∅) (orig p) (descOf c.q.ctxs p) (dataOf c.q.ctxs p) →
      Ready LanTx.subclass (Brought mem kept) (orig p) (descOf c.q.ctxs p) (dataOf c.q.ctxs p) := by
    rintro p hp ⟨hdesc, hdata⟩
    refine ⟨hdesc, fun addr len hprep => ⟨(hdata addr len hprep).1, fun i hlt hk => ?_⟩⟩
    exfalso
    obtain ⟨haddr, hlen⟩ := prepare_dataFetch hprep
    rw [← hdesc] at haddr hlen
    rw [haddr] at hk
    rw [hlen] at hlt
    exact haway p hp i hlt hk
  refine ⟨orig, ?_, ?_, ?_⟩
  · rw [hs]
    simp
  · intro p
    have hst := hc.slots p
    cases hp : c.q.states p with
    | prepared =>
      rw [hp] at hst
      exact hready p (by simp [hp]) hst
    | _ => trivial
  · intro p hp
    have hclaim : (p, DescState.processing) ∈ claims LanTx.subclass c :=
      List.mem_append_right _ (List.mem_map_of_mem hp)
    exact hready p (by simp [hi.owned.state_eq hclaim]) (hc.held p hp)

theorem TxStep.queueStep (h : TxStep mem kept c c') : QueueStep LanTx.subclass c c' := by
  cases h with
  | exec env cmd rest hm hs h => exact .exec env cmd rest hs h
  | tail t ht hs h => exact .tail t ht hs h

theorem reachable_machine (h : (txQueue mem kept base len).Reachable c) : (machine LanTx.subclass base len).Reachable c := by
  induction h with
  | start h => exact h.1
  | step _ h ih => exact .step ih h.queueStep

theorem contents_reachable (h : (txQueue mem kept base len).Reachable c) : ∃ orig, Contents (tracking mem kept) orig c := by
  induction h with
  | start h => exact contents_start h
  | step hr h ih =>
    obtain ⟨orig, hc⟩ := ih
    have hi := Inv.reachable (reachable_machine hr)
    cases h with
    | exec env cmd rest hm hs h =>
      exact ⟨_, hc.exec hm (tracking_processes _) (fun k _ => tracking_resumes _) hi hs h⟩
    | tail t ht hs h =>
      rw [h]
      exact ⟨orig, hc.tail t⟩

theorem ready_brought {s : Segment} {orig : Slot → List UInt8} (hc : Contents (tracking mem kept) orig c)
    (hs : s ∈ ready c) (hd : dtype s.d1 = dtypeData) :
    Full s ∧ Brought mem kept s.bufAddr (pktLen16 s.d1) s.data := by
  obtain ⟨p, hp, rfl⟩ := List.mem_map.mp hs
  obtain ⟨hdesc, hdata⟩ := hc.held p hp
  have hprep : prepare (orig p) = .dataFetch (bufAddr (orig p)) (pktLen16 (cmdTypeOffsetBsz (orig p))) := by
    rw [← hdesc]
    exact if_pos hd
  have hload := hdata _ _ hprep
  rw [← hdesc] at hload
  exact hload

/-- The guest leaves the buffers of the unit alone. -/
def Kept (kept : Set ℕ) (u : TxUnit) : Prop := ∀ s ∈ u.data, ∀ i < txBufSz s.d1, s.bufAddr + i ∈ kept

theorem loaded_of_brought {s : Segment} (hb : Brought mem kept s.bufAddr (pktLen16 s.d1) s.data)
    (hk : ∀ i < txBufSz s.d1, s.bufAddr + i ∈ kept) : Loaded mem s := by
  have hle := txBufSz_le s.d1
  apply List.ext_getElem?
  intro i
  by_cases hi : i < txBufSz s.d1
  · rw [List.getElem?_take_of_lt hi, hb i (by omega) (hk i hi), readBytes, List.getElem?_map, List.getElem?_range hi]
    rfl
  · rw [List.getElem?_take_eq_none (by omega), List.getElem?_eq_none (by rw [readBytes_length]; omega)]

theorem finish_error {ps : List Slot} {q : QueueBase} {f : Fault} (h : finish ps q = .error f) : f = .stateAssertion := by
  induction ps generalizing q with
  | nil => cases h
  | cons p ps ih =>
    unfold finish at h
    split at h
    · exact ih h
    · cases h
      rfl

variable {rest : List (Cmd Unit)}

/-- A call that returns false leaves everything as it was, one that returns true is made again. -/
structure Turned (accept : ℕ → Bool) (rest : List (Cmd Unit)) (c c' : Config TxClient Unit) (sent : Sent) : Prop where
  packet : triggerTxPacket accept c.client.tso (ready c) = .ok (some sent)
  tso : c'.client.tso = sent.tso
  segments : c'.client.readySegments = c.client.readySegments.drop sent.popped
  calls_eq : calls c'.log = calls c.log ++ sent.calls
  stack : c'.stack = .resume () :: rest
  states : ∀ p, c'.q.states p = if p ∈ c.client.readySegments.take sent.popped then .processed else c.q.states p

theorem packetStep_cases (hs : c.stack = .resume () :: rest) (h : PacketStep c c') :
    (∃ accept, triggerTxPacket accept c.client.tso (ready c) = .ok none ∧ c' = { c with stack := rest }) ∨
      ∃ accept sent, Turned accept rest c c' sent := by
  obtain ⟨env, rest', hs', he⟩ := h
  rw [hs] at hs'
  cases hs'
  obtain ⟨e, hr, ha⟩ := resume_ok he
  obtain ⟨r, hp, hr⟩ := bind_ok hr
  cases r with
  | none =>
    cases hr
    obtain ⟨q, hq, rfl⟩ := applyEffect_ok ha
    cases hq
    refine .inl ⟨env.client.accept, hp, ?_⟩
    simp [setDatas, setDescs]
  | some sent =>
    cases hr
    have ha := applyEffect_applied ha
    refine .inr ⟨env.client.accept, sent, hp, ?_, ?_, ha.calls, ha.stack, fun p => ?_⟩
    · rw [ha.client]
    · rw [ha.client]
    · rcases ha.states p with ⟨hn, hst⟩ | ⟨hm, -, hst⟩
      · rw [if_neg hn, hst]
      · rw [if_pos hm, hst]

theorem packetStep_exists {accept : ℕ → Bool} {r : Option Sent} (hi : Inv LanTx.subclass c)
    (hs : c.stack = .resume () :: rest) (hp : triggerTxPacket accept c.client.tso (ready c) = .ok r) :
    ∃ c', PacketStep c c' := by
  let env : Env TxEnv := ⟨fun _ => 0, fun _ _ => true, ⟨accept⟩⟩
  cases he : exec LanTx.subclass env { c with stack := rest } (.resume ()) with
  | ok c' => exact ⟨c', env, rest, hs, he⟩
  | error f =>
    exfalso
    have hstate : exec LanTx.subclass env { c with stack := rest } (.resume ()) ≠ .error .stateAssertion :=
      (hi.running hs).resume_state
    rcases bind_error he with he' | ⟨e, hr, ha⟩
    · rcases bind_error he' with he' | ⟨x, -, he'⟩
      · rw [show triggerTxPacket accept c.client.tso (ready c) = _ from he'] at hp
        cases hp
      · cases x <;> cases he'
    · have hw : e.write = none := by
        obtain ⟨x, -, hr⟩ := bind_ok hr
        cases x <;> cases hr <;> rfl
      rcases bind_error ha with ha | ⟨q, -, ha⟩
      · rw [finish_error ha] at he
        exact hstate he
      · rw [hw] at ha
        cases ha

theorem packetStep_calls (hs : c.stack = .resume () :: rest) (h : PacketStep c c') :
    (calls c'.log = calls c.log ∧ c'.stack = rest) ∨
      ((calls c.log).length < (calls c'.log).length ∧ c'.stack = .resume () :: rest) := by
  rcases packetStep_cases hs h with ⟨-, -, rfl⟩ | ⟨accept, sent, ht⟩
  · exact .inl ⟨rfl, rfl⟩
  · refine .inr ⟨?_, ht.stack⟩
    have hpos := List.length_pos_iff.mpr (sent_calls ht.packet)
    rw [ht.calls_eq, List.length_append]
    omega

theorem packetSteps_measure (h : Relation.ReflTransGen PacketStep c c') :
    (calls c.log).length ≤ (calls c'.log).length ∧ c'.stack.length ≤ c.stack.length ∧
      ((calls c'.log).length = (calls c.log).length → c'.stack.length = c.stack.length → c' = c) := by
  induction h with
  | refl => exact ⟨le_rfl, le_rfl, fun _ _ => rfl⟩
  | tail _ hstep ih =>
    obtain ⟨h1, h2, h3⟩ := ih
    have hstep' := hstep
    obtain ⟨env, rest, hs, -⟩ := hstep'
    rcases packetStep_calls hs hstep with ⟨hc, hst⟩ | ⟨hc, hst⟩
    · rw [hc, hst]
      rw [hs, List.length_cons] at h2
      exact ⟨h1, by omega, fun _ hlen => by omega⟩
    · rw [hst]
      rw [hs] at h2
      exact ⟨by omega, h2, fun hlen _ => by omega⟩

/-- The whole unit is copied: only the last descriptor may have the low bits of L2TAG1 set, and it is
not empty. -/
structure Copied (u : TxUnit) : Prop where
  tags : ∀ s ∈ u.inner, tagLow s.d1 = 0
  last : txBufSz u.last.d1 ≠ 0

/-- `ready_segments` holds a complete unit, and `trigger_tx` is about to run. -/
structure Complete (u : TxUnit) (c : Config TxClient Unit) : Prop where
  about : ∃ rest, c.stack = .resume () :: rest
  off : c.client.tso.tsoOff = 0
  len : c.client.tso.tsoLen = 0
  ready_eq : ready c = u.segs

variable {u : TxUnit}

theorem Complete.packet (h : Complete u c) (hu : Plain u) (accept : ℕ → Bool) :
    ∃ pktbuf, triggerTxPacket accept c.client.tso (ready c) = .ok (some ⟨⟨0, 0, pktbuf⟩,
      u.lead.dSkip + copyCnt u.data (bufSzSum u.data), [.ethSend ((TxUnits.fetched u.data).take (bufSzSum u.data))]⟩) := by
  have htso : c.client.tso = ⟨0, 0, c.client.tso.pktbuf⟩ :=
    calc c.client.tso = ⟨c.client.tso.tsoOff, c.client.tso.tsoLen, c.client.tso.pktbuf⟩ := rfl
      _ = ⟨0, 0, c.client.tso.pktbuf⟩ := by rw [h.off, h.len]
  rw [htso, h.ready_eq]
  exact ⟨_, packet_plain hu⟩

theorem Complete.popped_iff (h : Complete u c) (hu : Plain u) :
    c.client.readySegments.drop (u.lead.dSkip + copyCnt u.data (bufSzSum u.data)) = [] ↔ Copied u := by
  have hlen : c.client.readySegments.length = u.lead.dSkip + u.data.length := by
    rw [← u.segs_length, ← h.ready_eq, ready, List.length_map]
  have hle := copyCnt_le u.data (bufSzSum u.data)
  have hall := popped_all_iff hu
  rw [List.drop_eq_nil_iff, hlen]
  constructor
  · intro hge
    obtain ⟨htag, hlast⟩ := hall.mp (by omega)
    exact ⟨htag, hlast⟩
  · rintro ⟨htag, hlast⟩
    rw [hall.mpr ⟨htag, hlast⟩]

theorem machine_packetStep (h : (machine LanTx.subclass base len).Reachable c) (hp : PacketStep c c') :
    (machine LanTx.subclass base len).Reachable c' := by
  obtain ⟨env, rest, hs, he⟩ := hp
  exact .step h (.exec env (.resume ()) rest hs he)

theorem Complete.sends (h : Complete u c) (hu : Plain u) (hr : (txQueue mem kept base len).Reachable c)
    (hk : Kept kept u) (hc : Copied u) : SendsExactly mem u c := by
  have hm := reachable_machine hr
  obtain ⟨orig, hcont⟩ := contents_reachable hr
  obtain ⟨rest, hs⟩ := h.about
  obtain ⟨b, hp⟩ := h.packet hu fun _ => true
  obtain ⟨c₁, h₁⟩ := packetStep_exists (Inv.reachable hm) hs hp
  rcases packetStep_cases hs h₁ with ⟨accept, hn, -⟩ | ⟨accept, sent, ht⟩
  · obtain ⟨b', hp'⟩ := h.packet hu accept
    rw [hp'] at hn
    cases hn
  obtain ⟨b', hp'⟩ := h.packet hu accept
  obtain rfl := Option.some.inj (Except.ok.inj (hp'.symm.trans ht.packet))
  have hnil : c₁.client.readySegments = [] := by
    rw [ht.segments]
    exact (h.popped_iff hu).mpr hc
  have hnone : triggerTxPacket (fun _ => true) c₁.client.tso (ready c₁) = .ok none := by
    rw [ready, hnil]
    rfl
  obtain ⟨c₂, h₂⟩ := packetStep_exists (Inv.reachable (machine_packetStep hm h₁)) ht.stack hnone
  rcases packetStep_cases ht.stack h₂ with ⟨-, -, rfl⟩ | ⟨accept', sent', ht'⟩
  · refine ⟨rest, _, hs, .tail (.single h₁) h₂, rfl, ?_, hnil, ?_, ?_, fun p => ?_⟩
    · have hload : ∀ s ∈ u.data, Loaded mem s := by
        intro s hs
        have hin : s ∈ ready c := by
          rw [h.ready_eq]
          exact List.mem_append_right _ hs
        have hd : dtype s.d1 = dtypeData := by
          rcases List.mem_append.mp hs with hs | hs
          · exact (u.inner_data s hs).1
          · rw [List.mem_singleton.mp hs]
            exact u.last_data.1
        exact loaded_of_brought (ready_brought hcont hin hd).2 (hk s hs)
      rw [← frame_eq hload, ← gathered_eq hc.tags]
      exact ht.calls_eq
    · exact congrArg TsoState.tsoOff ht.tso
    · exact congrArg TsoState.tsoLen ht.tso
    · have hall : c.client.readySegments.take (u.lead.dSkip + copyCnt u.data (bufSzSum u.data)) =
          c.client.readySegments := List.take_of_length_le (List.drop_eq_nil_iff.mp ((h.popped_iff hu).mpr hc))
      have hst := ht.states p
      dsimp only at hst
      rw [hall] at hst
      exact hst
  · have hsome := ht'.packet
    rw [ready, hnil] at hsome
    cases hsome

theorem Complete.copied (h : Complete u c) (hu : Plain u) (hsend : SendsExactly mem u c) : Copied u := by
  obtain ⟨rest, c', hs, hrun, hst, hcalls, hnil, -⟩ := hsend
  rcases Relation.ReflTransGen.cases_head hrun with rfl | ⟨c₁, h₁, hrun⟩
  · rw [hs] at hst
    simp at hst
  rcases packetStep_cases hs h₁ with ⟨accept, hn, -⟩ | ⟨accept, sent, ht⟩
  · obtain ⟨b', hp'⟩ := h.packet hu accept
    rw [hp'] at hn
    cases hn
  obtain ⟨b', hp'⟩ := h.packet hu accept
  obtain rfl := Option.some.inj (Except.ok.inj (hp'.symm.trans ht.packet))
  have hlen : (calls c'.log).length = (calls c₁.log).length := by
    rw [hcalls, ht.calls_eq, List.length_append, List.length_append]
    rfl
  -- the one frame is out, so the next call returns false and nothing else happens
  rcases Relation.ReflTransGen.cases_head hrun with rfl | ⟨c₂, h₂, hrun⟩
  · rw [ht.stack] at hst
    simp at hst
  rcases packetStep_cases ht.stack h₂ with ⟨-, -, rfl⟩ | ⟨accept', sent', ht'⟩
  · obtain rfl := (packetSteps_measure hrun).2.2 hlen (by rw [hst])
    rw [← h.popped_iff hu, ← ht.segments]
    exact hnil
  · exfalso
    have hpos := List.length_pos_iff.mpr (sent_calls ht'.packet)
    have hmono := (packetSteps_measure hrun).1
    rw [ht'.calls_eq, List.length_append] at hmono
    omega

theorem Complete.sendsExactly_iff (h : Complete u c) (hu : Plain u) (hr : (txQueue mem kept base len).Reachable c)
    (hk : Kept kept u) : SendsExactly mem u c ↔ Copied u :=
  ⟨h.copied hu, h.sends hu hr hk⟩

end Vmux.TxByteExact
