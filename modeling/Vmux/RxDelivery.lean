import Mathlib.Algebra.Order.Floor.Div
import Vmux.CascadeTermination
import Vmux.DescriptorOrder
import Vmux.Tracing

namespace Vmux.RxDelivery

open Bytes CircularWindow Transitions DescriptorQueue ProcessOrder DescriptorOrder ExactlyOnce Tracing LanRx

def dataWrites (log : List Event) : List (Slot × ℕ × List UInt8) :=
  log.filterMap fun e => match e with
    | .dataWrite p addr bytes => some (p, addr, bytes)
    | _ => none

theorem dataWrites_append (a b : List Event) : dataWrites (a ++ b) = dataWrites a ++ dataWrites b :=
  List.filterMap_append

/-- What the loop of `packet_received` does with the context at the front of `dcache`. -/
def delivery (s : RxClient) (p : Slot) (dcache : List Slot) (desc : List UInt8) (k : RxPacket) :
    Effect RxClient RxPacket where
  client := { s with dcache }
  descs := [(p, receivedDesc desc (chunk s k).length k.timestamp (k.i = k.numDescs - 1))]
  write := some (p, pktAddr desc, chunk s k)
  next := if k.i + 1 < k.numDescs then some { k with i := k.i + 1 } else none

section

variable {env : Env RxEnv} {c c' : Config RxClient RxPacket} {cmd : Cmd RxPacket} {rest : List (Cmd RxPacket)}
  {base len m : ℕ}

theorem resume_delivery {s : RxClient} {ctxs : Slot → DescCtx} {k : RxPacket} {e : Effect RxClient RxPacket}
    (h : LanRx.resume s ctxs k = .ok e) :
    ∃ p dcache, s.dcache = p :: dcache ∧ e = delivery s p dcache (ctxs p).desc k := by
  unfold LanRx.resume at h
  split at h
  · cases h
  · rename_i p dcache hd
    cases h
    exact ⟨p, dcache, hd, rfl⟩

theorem exec_rx (he : c.q.enabled = true) (h : exec LanRx.subclass env c cmd = .ok c') :
    (c'.client = c.client ∧ processes c'.log = processes c.log ∧ dataWrites c'.log = dataWrites c.log ∧
      cmd.isResume = false ∧ ∃ new, c'.stack = new ++ c.stack ∧ ∀ x ∈ new, x.isResume = false) ∨
    (∃ i j, cmd = .processLoop i j ∧ i + j < c.q.activeCnt ∧
      c'.client = { c.client with dcache := c.client.dcache ++ [slot maxActiveDescs (c.q.activeFirstPos + (i + j))] } ∧
      (processes c'.log).length = (processes c.log).length + 1 ∧ dataWrites c'.log = dataWrites c.log ∧
      c'.stack = .processLoop i (j + 1) :: c.stack) ∨
    ∃ k p dcache, cmd = .resume k ∧ c.client.dcache = p :: dcache ∧ c'.client = { c.client with dcache } ∧
      processes c'.log = processes c.log ∧
      dataWrites c'.log = dataWrites c.log ++ [(p, pktAddr (c.q.ctxs p).desc, chunk c.client k)] ∧
      c'.stack = .dataWritten p ::
        ((if k.i + 1 < k.numDescs then [.resume { k with i := k.i + 1 }] else []) ++ c.stack) := by
  rcases exec_subclass he h with hq | ⟨i, j, p, e, rfl, rfl, hlt, -, hp, ha⟩ | ⟨k, e, rfl, hr, ha⟩
  · obtain ⟨new, hlog, -, hpr, hdw⟩ := hq.log
    refine .inl ⟨hq.client, ?_, ?_, hq.cmd.1, hq.stack⟩
    · rw [hlog, processes_append, processes_eq_nil hpr, List.append_nil]
    · have hnil : dataWrites new = [] := by
        rw [dataWrites, List.filterMap_eq_nil_iff]
        intro x hx
        cases x with
        | dataWrite p addr bytes => exact absurd hx (hdw p addr bytes)
        | _ => rfl
      rw [hlog, dataWrites_append, hnil, List.append_nil]
  · cases hp
    refine .inr (.inl ⟨i, j, rfl, hlt, ha.client, ?_, ?_, ha.stack⟩)
    · rw [ha.log, processes_append, processes_effect, List.append_nil, enterProcess, processes_append]
      simp [processes]
    · rw [ha.log, enterProcess]
      simp [dataWrites]
  · obtain ⟨p, dcache, hd, rfl⟩ := resume_delivery hr
    refine .inr (.inr ⟨k, p, dcache, rfl, hd, ha.client, ?_, ?_, ?_⟩)
    · rw [ha.log, processes_append, processes_effect, List.append_nil]
    · rw [ha.log, dataWrites_append]
      simp [delivery, dataWrites]
    · rw [ha.stack]
      simp only [Effect.cmds, delivery]
      split <;> rfl

/-- The contexts in `dcache` are consecutive, from turn `m` up to the last one on which `process()` was called. -/
structure Lined (c : Config RxClient RxPacket) (m : ℕ) : Prop where
  total : m + c.client.dcache.length = (processes c.log).length
  held : c.client.dcache = (List.range c.client.dcache.length).map fun r => slot maxActiveDescs (m + r)

theorem Lined.start (h : Enabled LanRx.subclass base len c) : Lined c 0 := by
  have hnil : c.client.dcache = [] := h.held
  refine ⟨?_, ?_⟩
  · rw [hnil, h.log]
    rfl
  · rw [hnil]
    rfl

theorem Lined.cons {p : Slot} {dcache : List Slot} (h : Lined c m) (hd : c.client.dcache = p :: dcache) :
    p = slot maxActiveDescs m ∧ m + 1 + dcache.length = (processes c.log).length ∧
      dcache = (List.range dcache.length).map fun r => slot maxActiveDescs (m + 1 + r) := by
  have htotal := h.total
  have hheld := h.held
  rw [hd, List.length_cons, List.range_succ_eq_map, List.map_cons, List.map_map, List.cons.injEq] at hheld
  rw [hd, List.length_cons] at htotal
  refine ⟨hheld.1, by omega, ?_⟩
  rw [hheld.2, List.length_map, List.length_range]
  apply List.map_congr_left
  intro r _
  simp only [Function.comp_apply]
  congr 1
  omega

theorem Lined.exec (h : Lined c m) (hc : (machine LanRx.subclass base len).Reachable c) (hs : c.stack = cmd :: rest)
    (he : exec LanRx.subclass env { c with stack := rest } cmd = .ok c') :
    Lined c' (if cmd.isResume then m + 1 else m) := by
  have hi := Inv.reachable hc
  rcases exec_rx (c := { c with stack := rest }) hi.enabled he with
    ⟨hcl, hp, -, hcmd, -⟩ | ⟨i, j, rfl, hlt, hcl, hp, -, -⟩ | ⟨k, p, dcache, rfl, hd, hcl, hp, -⟩
  · rw [hcmd, if_neg Bool.false_ne_true]
    refine ⟨?_, ?_⟩
    · rw [hcl, hp]
      exact h.total
    · rw [hcl]
      exact h.held
  · obtain ⟨horder, hdirect⟩ := Direct.reachable lanRx_silent hc
    obtain ⟨done, ho⟩ := Order.reachable horder
    have hij : i + j = c.q.firstUnprocessed := (hdirect [] i j rest hs).2.2
    have htotal := h.total
    have hlog := congrArg List.length ho.ordered.log
    rw [List.length_map, turns, List.length_map, List.length_range] at hlog
    have hslot : slot maxActiveDescs (c.q.activeFirstPos + (i + j)) =
        slot maxActiveDescs (m + c.client.dcache.length) := by
      rw [ho.ordered.ringed.pos_eq, slot_mod_add, hij, htotal, hlog]
    change Lined c' m
    refine ⟨?_, ?_⟩
    · rw [hcl, hp, List.length_append, List.length_singleton]
      change m + (c.client.dcache.length + 1) = (processes c.log).length + 1
      omega
    · rw [hcl]
      dsimp only
      rw [hslot, List.length_append, List.length_singleton, List.range_succ, List.map_append, ← h.held]
      rfl
  · obtain ⟨-, h2, h3⟩ := h.cons hd
    change Lined c' (m + 1)
    refine ⟨?_, ?_⟩
    · rw [hcl, hp]
      exact h2
    · rw [hcl]
      exact h3

theorem dcache_processing (hi : Inv LanRx.subclass c) {p : Slot} (hp : p ∈ c.client.dcache) :
    c.q.states p = .processing :=
  hi.owned.state_eq (List.mem_append_right _ (List.mem_map_of_mem hp))

theorem dcache_length_le (hi : Inv LanRx.subclass c) : c.client.dcache.length ≤ maxActiveDescs := by
  have hn : c.client.dcache.Nodup := by
    have h := hi.owned.nodup.sublist ((List.sublist_append_right _ _).map _)
    rwa [List.map_map, show Prod.fst ∘ (fun p : Slot => (p, DescState.processing)) = id from rfl,
      List.map_id] at h
  simpa using hn.length_le_card

theorem processes_length (hc : (machine LanRx.subclass base len).Reachable c) {done : ℕ}
    (hr : Ringed base len c done) : (processes c.log).length = done + c.q.firstUnprocessed ∧
      ∀ i, c.q.firstUnprocessed ≤ i → i < c.q.activeCnt → ¬Called (c.q.stateAt (c.q.activeFirstPos + i)) := by
  obtain ⟨done', ho⟩ := Order.reachable (Direct.reachable lanRx_silent hc).1
  obtain rfl := ringed_unique hr ho.ordered.ringed
  have hlog := congrArg List.length ho.ordered.log
  rw [List.length_map, turns, List.length_map, List.length_range] at hlog
  exact ⟨hlog, ho.ordered.waiting⟩

theorem Lined.done_le (h : Lined c m) (hc : (machine LanRx.subclass base len).Reachable c) {done : ℕ}
    (hr : Ringed base len c done) : done ≤ m := by
  by_contra hlt
  have hi := Inv.reachable hc
  obtain ⟨hlog, hwait⟩ := processes_length hc hr
  have htotal := h.total
  have hle := dcache_length_le hi
  have hcnt := hi.window.cnt_le
  have hmem : slot maxActiveDescs (done - 1) ∈ c.client.dcache := by
    rw [h.held]
    refine List.mem_map.mpr ⟨done - 1 - m, List.mem_range.mpr (by omega), ?_⟩
    rw [show m + (done - 1 - m) = done - 1 by omega]
  have hst := dcache_processing hi hmem
  have hactive := (hi.window.active_iff _).mpr (by rw [hst]; simp)
  have h128 : maxActiveDescs = 128 := rfl
  -- the slot before the window is its last one only when all contexts are in use
  have hslot : slot maxActiveDescs (c.q.activeFirstPos + 127) = slot maxActiveDescs (done - 1) := by
    rw [hr.pos_eq, slot_mod_add, show done + 127 = done - 1 + maxActiveDescs by omega]
    simp [slot]
  have hoff : offset c.q.activeFirstPos (slot maxActiveDescs (done - 1)) = 127 :=
    (offset_eq_iff (by decide) _).mpr hslot.symm
  have hcalled : Called (c.q.stateAt (c.q.activeFirstPos + 127)) := by
    rw [stateAt_eq, hslot, hst]
    decide
  have hfu : 127 < c.q.firstUnprocessed := by
    by_contra hge
    exact hwait 127 (by omega) (by omega) hcalled
  omega

theorem Lined.at_rest (h : Lined c m) (hc : (machine LanRx.subclass base len).Reachable c) {done : ℕ}
    (hr : Ringed base len c done) (hs : c.stack = []) : m = done := by
  have hi := Inv.reachable hc
  have hle := h.done_le hc hr
  obtain ⟨hlog, -⟩ := processes_length hc hr
  have htotal := h.total
  have hfu := firstUnprocessed_le c.q
  have hcnt := hi.window.cnt_le
  rcases Nat.eq_zero_or_pos c.q.activeCnt with hz | hpos
  · omega
  · have hm := rest_held lanRx_rouses hc hs hpos
    change _ ∈ c.client.dcache at hm
    rw [h.held] at hm
    obtain ⟨r, hr', heq⟩ := List.mem_map.mp hm
    rw [List.mem_range] at hr'
    rw [hr.pos_eq, slot_mod, show m + r = done + (m + r - done) by omega] at heq
    have := slot_injective (i := m + r - done) (j := 0) (by omega) (by decide) heq
    omega

end

theorem length_field {d : List UInt8} {off n v : ℕ} (hd : d.length = 32) (hn : off + n ≤ 32) :
    (overwrite d off (leBytes n v)).length = 32 := by
  rw [overwrite_length (by rw [leBytes_length]; omega), hd]

theorem receivedDesc_length {desc : List UInt8} (h : desc.length = 32) (pktlen : ℕ) (ts : Timestamp) (last : Bool) :
    (receivedDesc desc pktlen ts last).length = 32 := by
  have h1 : ∀ v, (overwrite (overwrite desc 4 (leBytes 2 pktlen)) 8 (leBytes 8 v)).length = 32 :=
    fun v => length_field (length_field h (by decide)) (by decide)
  unfold receivedDesc
  dsimp only
  split <;> split
  · exact length_field (h1 _) (by decide)
  · exact length_field (length_field (length_field (length_field (h1 _) (by decide)) (by decide)) (by decide)) (by decide)
  · exact h1 _
  · exact length_field (length_field (length_field (h1 _) (by decide)) (by decide)) (by decide)

/-- A receive queue leaves its descriptors as they were read until it fills them in; `plan` says how. -/
def tracking (plan : Slot → List UInt8 → List UInt8 → Prop) : Tracking LanRx.subclass where
  allowed _ := True
  load _ _ _ := True
  keeps _ o d _ := d = o
  done p o d _ := (o.length = 32 → d.length = 32) ∧ plan p o d
  load_nil _ _ := trivial
  load_read _ _ _ := trivial

theorem tracking_processes (plan : Slot → List UInt8 → List UInt8 → Prop) (env : Env RxEnv) (s : RxClient) :
    (tracking plan).Processes env s := by
  rintro ctxs p e orig ⟨⟩ - hready hkeeps
  refine ⟨by simp, by simp, by simp [Effect.released], ?_⟩
  intro r hr
  rcases List.mem_append.mp hr with hr | hr
  · exact hkeeps r hr
  · obtain rfl := List.mem_singleton.mp hr
    exact hready.1

theorem tracking_resumes {plan : Slot → List UInt8 → List UInt8 → Prop} (env : Env RxEnv) {s : RxClient} {k : RxPacket}
    (hplan : ∀ p dcache o, s.dcache = p :: dcache →
      plan p o (receivedDesc o (chunk s k).length k.timestamp (k.i = k.numDescs - 1))) :
    (tracking plan).Resumes env s k := by
  intro ctxs e orig hr hn hkeeps
  obtain ⟨p, dcache, hd, rfl⟩ := resume_delivery hr
  change ∀ r ∈ s.dcache, _ at hkeeps
  change s.dcache.Nodup at hn
  have hmem : p ∈ LanRx.subclass.held s := by
    change p ∈ s.dcache
    rw [hd]
    exact List.mem_cons_self
  have hdesc : (ctxs p).desc = orig p := hkeeps p hmem
  refine ⟨by simpa [delivery] using hmem, by simp [delivery], ?_, ?_⟩
  · intro r hr
    obtain rfl : r = p := by simpa [delivery, Effect.released] using hr
    have hd' : assigned (descOf ctxs) (delivery s r dcache (ctxs r).desc k).descs r =
        receivedDesc (orig r) (chunk s k).length k.timestamp (k.i = k.numDescs - 1) := by
      rw [delivery, hdesc]
      exact Function.update_self _ _ _
    rw [hd']
    exact ⟨fun hl => receivedDesc_length hl _ _ _, hplan r dcache (orig r) hd⟩
  · intro r hr
    change r ∈ dcache at hr
    have hne : p ≠ r := by
      rintro rfl
      rw [hd] at hn
      exact (List.nodup_cons.mp hn).1 hr
    have hd' : assigned (descOf ctxs) (delivery s p dcache (ctxs p).desc k).descs r = descOf ctxs r := by
      refine assigned_of_notMem ?_
      simpa [delivery] using hne
    rw [hd']
    exact hkeeps r (by rw [hd]; exact List.mem_cons_of_mem _ hr)

/-- A LAN receive queue whose data buffers have `128 * b` bytes; the tail may be any 32-bit value. -/
def receiving (base len : ℕ) : Machine (Traced RxClient RxPacket) where
  start s := Enabled LanRx.subclass base len s.c ∧ s.c.q.descLen = 32 ∧ s.seen = [] ∧
    ∃ b, 0 < b ∧ b < 128 ∧ s.c.client.dbuffSize = 128 * b
  step := TracedStep LanRx.subclass len 0x100000000

structure Followed (base len : ℕ) (s : Traced RxClient RxPacket) : Prop where
  queue : (machine LanRx.subclass base len).Reachable s.c
  descLen : s.c.q.descLen = 32
  dbuff : ∃ b, 0 < b ∧ b < 128 ∧ s.c.client.dbuffSize = 128 * b
  lined : ∃ m, Lined s.c m
  traces : ∃ orig done, Traces (tracking fun _ _ _ => True) (fun _ _ _ => True) base len s orig done

section

variable {base len : ℕ} {s s' t : Traced RxClient RxPacket} {env : Env RxEnv} {cmd : Cmd RxPacket}
  {rest : List (Cmd RxPacket)} {c c' : Config RxClient RxPacket}

theorem exec_client (he : c.q.enabled = true) (h : exec LanRx.subclass env c cmd = .ok c') :
    c'.client = { c.client with dcache := c'.client.dcache } := by
  rcases exec_rx he h with ⟨hcl, -⟩ | ⟨i, j, -, -, hcl, -⟩ | ⟨k, p, dcache, -, -, hcl, -⟩
  · rw [hcl]
  · rw [hcl]
  · rw [hcl]

theorem Followed.step (h : Followed base len s) (hs : TracedStep LanRx.subclass len 0x100000000 s s') :
    Followed base len s' := by
  have hi := Inv.reachable h.queue
  have hq : (machine LanRx.subclass base len).Reachable s'.c := .step h.queue (hs.queueStep le_rfl)
  obtain ⟨m, hl⟩ := h.lined
  obtain ⟨orig, done, ht⟩ := h.traces
  cases hs with
  | exec env cmd rest hs he =>
    refine ⟨hq, ?_, ?_, ⟨_, hl.exec h.queue hs he⟩, ?_⟩
    · exact (exec_descLen (c := { s.c with stack := rest }) hi.enabled he).trans h.descLen
    · obtain ⟨b, h1, h2, h3⟩ := h.dbuff
      refine ⟨b, h1, h2, ?_⟩
      rw [exec_client (c := { s.c with stack := rest }) hi.enabled he]
      exact h3
    · refine ht.exec hi rfl ?_ trivial (tracking_processes _ env _) ?_ hs he
      · intro j o d data ho hd
        rw [h.descLen] at ho ⊢
        exact ⟨trivial, hd.1 ho⟩
      · exact fun k _ => tracking_resumes env fun _ _ _ _ => trivial
  | receive env x hs he =>
    have ht' := ht.receive hs he
    obtain ⟨k, rfl⟩ := receive_ok he
    exact ⟨hq, h.descLen, h.dbuff, ⟨m, hl.total, hl.held⟩, ⟨orig, done, ht'⟩⟩
  | tail t _ hs => exact ⟨hq, h.descLen, h.dbuff, ⟨m, hl.total, hl.held⟩, ⟨orig, done, ht.tail hi hs t _⟩⟩

theorem Followed.reachable (h : (receiving base len).Reachable s) : Followed base len s := by
  induction h with
  | start h =>
    obtain ⟨he, hdl, hs, hb⟩ := h
    exact ⟨.start he, hdl, hb, ⟨0, Lined.start he⟩, ⟨fun _ => [], 0, Traces.start he hs⟩⟩
  | step _ h ih => exact ih.step h

/-- The part of a frame that the `j`-th turn of the loop hands over, with where it goes. -/
def part (s : Traced RxClient RxPacket) (k : RxPacket) (m j : ℕ) : Slot × ℕ × List UInt8 :=
  (slot maxActiveDescs (m + j), pktAddr (s.seen.getD (m + j) []), chunk s.c.client { k with i := j })

/-- How the `j`-th turn of the loop fills in a descriptor. -/
def filled (s : Traced RxClient RxPacket) (k : RxPacket) (j : ℕ) (o : List UInt8) : List UInt8 :=
  receivedDesc o (chunk s.c.client { k with i := j }).length k.timestamp (j = k.numDescs - 1)

def plan (s : Traced RxClient RxPacket) (k : RxPacket) (m : ℕ) (p : Slot) (o d : List UInt8) : Prop :=
  ∀ j < k.numDescs, p = slot maxActiveDescs (m + j) → d = filled s k j o

def Answer (s : Traced RxClient RxPacket) (k : RxPacket) (m j : ℕ) (o d : List UInt8) : Prop :=
  m ≤ j → j < m + k.numDescs → d = filled s k (j - m) o

variable {k : RxPacket} {m i : ℕ}

/-- The loop of `packet_received`, which started in `s`, after `i` of its turns. -/
structure Delivering (base len : ℕ) (s t : Traced RxClient RxPacket) (k : RxPacket) (m i : ℕ) : Prop where
  queue : (machine LanRx.subclass base len).Reachable t.c
  descLen : t.c.q.descLen = 32
  client : t.c.client = { s.c.client with dcache := t.c.client.dcache }
  lined : Lined t.c (m + i)
  le : i ≤ k.numDescs
  loop : t.c.stack.filter Cmd.isResume = if i < k.numDescs then [.resume { k with i }] else []
  inside : m + k.numDescs ≤ s.seen.length ∧ k.numDescs ≤ maxActiveDescs
  enough : m + k.numDescs ≤ (processes s.c.log).length
  writes : dataWrites t.c.log = dataWrites s.c.log ++ (List.range i).map (part s k m)
  seen : s.seen <+: t.seen
  log : ∃ new, t.c.log = s.c.log ++ new
  traces : ∃ orig done, Traces (tracking (plan s k m)) (Answer s k m) base len t orig done

theorem Delivering.resumes (h : Delivering base len s t k m i) (hs : t.c.stack = cmd :: rest) {k' : RxPacket}
    (hc : cmd = .resume k') : i < k.numDescs ∧ k' = { k with i } ∧ rest.filter Cmd.isResume = [] := by
  have hl := h.loop
  rw [hs, hc, List.filter_cons_of_pos rfl] at hl
  split at hl
  · rename_i hlt
    rw [List.cons.injEq, Cmd.resume.injEq] at hl
    exact ⟨hlt, hl.1, hl.2⟩
  · cases hl

theorem chunk_congr {a b : RxClient} (h : a = { b with dcache := a.dcache }) (k : RxPacket) : chunk a k = chunk b k := by
  rw [h]
  rfl

theorem Delivering.desc_eq (h : Delivering base len s t k m i) {orig : Slot → List UInt8} {done : ℕ}
    (ht : Traces (tracking (plan s k m)) (Answer s k m) base len t orig done) (hlt : i < k.numDescs)
    {p : Slot} {dcache : List Slot} (hd : t.c.client.dcache = p :: dcache) :
    (t.c.q.ctxs p).desc = s.seen.getD (m + i) [] := by
  obtain ⟨hp, htotal, -⟩ := h.lined.cons hd
  obtain ⟨hlog, -⟩ := processes_length h.queue ht.wrote.ringed
  have hle := h.lined.done_le h.queue ht.wrote.ringed
  have hfu := firstUnprocessed_le t.c.q
  have hkeep : (t.c.q.ctxs p).desc = orig p := by
    refine ht.contents.held p ?_
    change p ∈ t.c.client.dcache
    rw [hd]
    exact List.mem_cons_self
  have hread := ht.window (m + i - done) (by omega)
  have hslot : slot maxActiveDescs (t.c.q.activeFirstPos + (m + i - done)) = p := by
    rw [ht.wrote.ringed.pos_eq, slot_mod_add, hp, show done + (m + i - done) = m + i by omega]
  rw [hslot, show done + (m + i - done) = m + i by omega] at hread
  have hs : s.seen[m + i]? = some (orig p) := by
    obtain ⟨new, hnew⟩ := h.seen
    have := h.inside.1
    rw [← hnew, List.getElem?_append_left (by omega)] at hread
    exact hread
  rw [hkeep, List.getD_eq_getElem?_getD, hs]
  rfl

theorem plan_answer {j : ℕ} {o d data : List UInt8} (hl : o.length = 32)
    (h : (tracking (plan s k m)).done (slot maxActiveDescs j) o d data) : Answer s k m j o d ∧ d.length = 32 := by
  refine ⟨fun h1 h2 => h.2 (j - m) (by omega) ?_, h.1 hl⟩
  rw [Nat.add_sub_cancel' h1]

theorem Delivering.plan_met (h : Delivering base len s t k m i) (hs : t.c.stack = cmd :: rest) {k' : RxPacket}
    (hc : cmd = .resume k') {p : Slot} {dcache : List Slot} (hd : t.c.client.dcache = p :: dcache) (o : List UInt8) :
    plan s k m p o (receivedDesc o (chunk t.c.client k').length k'.timestamp (k'.i = k'.numDescs - 1)) := by
  obtain ⟨hlt, rfl, -⟩ := h.resumes hs hc
  obtain ⟨hp, -⟩ := h.lined.cons hd
  have hn := h.inside.2
  intro j hj hpj
  rw [hp] at hpj
  obtain rfl : i = j := slot_injective (by omega) (by omega) hpj
  rw [filled, chunk_congr h.client]

theorem Delivering.exec (h : Delivering base len s t k m i) (hs : t.c.stack = cmd :: rest)
    (he : exec LanRx.subclass env { t.c with stack := rest } cmd = .ok c') :
    ∃ i', Delivering base len s ⟨c', t.posted, t.seen ++ readNow env t.c.q cmd⟩ k m i' := by
  have hi := Inv.reachable h.queue
  have hq : (machine LanRx.subclass base len).Reachable c' := .step h.queue (.exec env cmd rest hs he)
  have hdl := (exec_descLen (c := { t.c with stack := rest }) hi.enabled he).trans h.descLen
  have hcl : c'.client = { s.c.client with dcache := c'.client.dcache } := by
    rw [exec_client (c := { t.c with stack := rest }) hi.enabled he]
    dsimp only
    rw [h.client]
  have hl := h.lined.exec h.queue hs he
  have hseen : s.seen <+: t.seen ++ readNow env t.c.q cmd := h.seen.trans (List.prefix_append _ _)
  have hlog : ∃ new, c'.log = s.c.log ++ new := by
    obtain ⟨a, ha⟩ := h.log
    obtain ⟨b, hb⟩ := exec_log (c := { t.c with stack := rest }) hi.enabled he
    refine ⟨a ++ b, hb.trans ?_⟩
    rw [← List.append_assoc, ← ha]
  obtain ⟨orig, done, ht⟩ := h.traces
  have htr : ∃ orig' done', Traces (tracking (plan s k m)) (Answer s k m) base len
      ⟨c', t.posted, t.seen ++ readNow env t.c.q cmd⟩ orig' done' := by
    refine ht.exec hi rfl ?_ trivial (tracking_processes _ env _) ?_ hs he
    · intro j o d data ho hd
      rw [h.descLen] at ho ⊢
      exact plan_answer ho hd
    · exact fun k' hc => tracking_resumes env fun p dcache o hd => h.plan_met hs hc hd o
  rcases exec_rx (c := { t.c with stack := rest }) hi.enabled he with
    ⟨-, -, hw, hcmd, new, hst, hnew⟩ | ⟨a, b, rfl, -, -, -, hw, hst⟩ | ⟨k', p, dcache, rfl, hd, -, -, hw, hst⟩
  · rw [hcmd, if_neg Bool.false_ne_true] at hl
    refine ⟨i, hq, hdl, hcl, hl, h.le, ?_, h.inside, h.enough, hw.trans h.writes, hseen, hlog, htr⟩
    have hloop := h.loop
    rw [hs, List.filter_cons_of_neg (by simp [hcmd])] at hloop
    dsimp only
    rw [hst, List.filter_append, List.filter_eq_nil_iff.mpr (by simpa using hnew), List.nil_append]
    exact hloop
  · refine ⟨i, hq, hdl, hcl, hl, h.le, ?_, h.inside, h.enough, hw.trans h.writes, hseen, hlog, htr⟩
    have hloop := h.loop
    rw [hs, List.filter_cons_of_neg (by simp [Cmd.isResume])] at hloop
    dsimp only
    rw [hst, List.filter_cons_of_neg (by simp [Cmd.isResume])]
    exact hloop
  · obtain ⟨hlt, rfl, hrest⟩ := h.resumes hs rfl
    obtain ⟨hp, -⟩ := h.lined.cons hd
    have hl' : Lined c' (m + (i + 1)) := hl
    refine ⟨i + 1, hq, hdl, hcl, hl', hlt, ?_, h.inside, h.enough, ?_, hseen, hlog, htr⟩
    · dsimp only
      rw [hst, List.filter_cons_of_neg (by simp [Cmd.isResume]), List.filter_append]
      change _ ++ rest.filter Cmd.isResume = _
      rw [hrest, List.append_nil]
      split
      · rfl
      · rfl
    · refine hw.trans ?_
      have hpart : (p, pktAddr (t.c.q.ctxs p).desc, chunk t.c.client { k with i }) = part s k m i := by
        rw [part, h.desc_eq ht hlt hd, chunk_congr h.client, ← hp]
      rw [h.writes, List.range_succ, List.map_append, List.append_assoc]
      exact congrArg _ (congrArg _ (congrArg (fun x => [x]) hpart))

def numDescs (s : RxClient) (data : List UInt8) : ℕ := (data.length + s.dbuffSize - 1) / s.dbuffSize

def firstTurn (env : RxEnv) (s : RxClient) (data : List UInt8) : RxPacket :=
  ⟨data, numDescs s data, 0, timestampOf env data⟩

theorem receive_cases (env : Env RxEnv) (hb : c.client.dbuffSize ≠ 0) (he : c.q.enabled = true) {data : List UInt8}
    (hn : 1 ≤ data.length) :
    (c.client.dcache.length < numDescs c.client data ∧ receive LanRx.subclass env c data = .ok c) ∨
      (numDescs c.client data ≤ c.client.dcache.length ∧ 0 < numDescs c.client data ∧
        receive LanRx.subclass env c data =
          .ok { c with stack := .resume (firstTurn env.client c.client data) :: c.stack }) := by
  have hpos : 0 < numDescs c.client data := Nat.div_pos (by omega) (by omega)
  by_cases hlt : c.client.dcache.length < numDescs c.client data
  · refine .inl ⟨hlt, ?_⟩
    have hr : LanRx.receive env.client c.client c.q data = .ok none := by
      unfold LanRx.receive
      rw [if_neg hb]
      dsimp only
      rw [he, Bool.not_true, if_neg Bool.false_ne_true]
      exact if_pos hlt
    unfold DescriptorQueue.receive
    change (LanRx.receive env.client c.client c.q data >>= _) = _
    rw [hr]
    rfl
  · refine .inr ⟨by omega, hpos, ?_⟩
    have hr : LanRx.receive env.client c.client c.q data = .ok (some (firstTurn env.client c.client data)) := by
      unfold LanRx.receive
      rw [if_neg hb]
      dsimp only
      rw [he, Bool.not_true, if_neg Bool.false_ne_true]
      change (if _ < numDescs c.client data then _ else if numDescs c.client data = 0 then _ else _) = _
      rw [if_neg hlt, if_neg (by omega)]
      rfl
    unfold DescriptorQueue.receive
    change (LanRx.receive env.client c.client c.q data >>= _) = _
    rw [hr]
    rfl

theorem Lined.idle (h : Lined c m) (hc : (machine LanRx.subclass base len).Reachable c) (hr : Ringed base len c m)
    (p : Slot) : Called (c.q.states p) → c.q.states p = .processing := by
  intro hcalled
  have hi := Inv.reachable hc
  obtain ⟨hlog, hwait⟩ := processes_length hc hr
  have htotal := h.total
  have hne : c.q.states p ≠ .empty := by
    intro he
    rw [he] at hcalled
    exact absurd hcalled (by decide)
  have hactive := (hi.window.active_iff p).mpr hne
  have hfu : offset c.q.activeFirstPos p < c.q.firstUnprocessed := by
    by_contra hge
    refine hwait _ (by omega) hactive ?_
    rwa [stateAt_eq, slot_offset]
  refine dcache_processing hi ?_
  rw [h.held]
  refine List.mem_map.mpr ⟨offset c.q.activeFirstPos p, List.mem_range.mpr (by omega), ?_⟩
  rw [← slot_mod_add, ← hr.pos_eq, slot_offset]

theorem forall₂_range {α : Type} {R : ℕ → α → Prop} {n : ℕ} {l : List α} (h : List.Forall₂ R (List.range n) l) :
    List.Forall₂ (fun j d => j < n ∧ R j d) (List.range n) l := by
  rw [List.forall₂_iff_get] at h ⊢
  refine ⟨h.1, fun i h1 h2 => ⟨?_, h.2 i h1 h2⟩⟩
  rw [List.get_eq_getElem, List.getElem_range]
  rwa [List.length_range] at h1

theorem Delivering.start (h : Followed base len s) (hs : s.c.stack = []) {data : List UInt8} (hn : 1 ≤ data.length)
    (hle : numDescs s.c.client data ≤ s.c.client.dcache.length) (env : Env RxEnv) :
    ∃ m, Lined s.c m ∧ Wrote base len s.c m ∧ Delivering base len s
      ⟨{ s.c with stack := [.resume (firstTurn env.client s.c.client data)] }, s.posted, s.seen⟩
      (firstTurn env.client s.c.client data) m 0 := by
  have hi := Inv.reachable h.queue
  obtain ⟨b, hb, -, hbuf⟩ := h.dbuff
  obtain ⟨m, hl⟩ := h.lined
  obtain ⟨orig, done, ht⟩ := h.traces
  obtain rfl := hl.at_rest h.queue ht.wrote.ringed hs
  obtain ⟨hlog, -⟩ := processes_length h.queue ht.wrote.ringed
  have htotal := hl.total
  have hfu := firstUnprocessed_le s.c.q
  have hseen := ht.seen_eq
  have hlen := dcache_length_le hi
  rcases receive_cases env (by omega) hi.enabled hn with ⟨hlt, -⟩ | ⟨-, hpos, hr⟩
  · omega
  rw [hs] at hr
  refine ⟨m, hl, ht.wrote, .step h.queue (.receive env data hs hr), h.descLen, rfl, ⟨hl.total, hl.held⟩,
    Nat.zero_le _, ?_, ?_, ?_, ?_, List.prefix_rfl, ⟨[], (List.append_nil _).symm⟩, orig, m, ?_⟩
  · exact (if_pos hpos).symm
  · change m + numDescs s.c.client data ≤ _ ∧ numDescs s.c.client data ≤ _
    omega
  · change m + numDescs s.c.client data ≤ _
    omega
  · exact (List.append_nil _).symm
  · have hu : underway s.c.stack = 0 := by rw [hs]; rfl
    refine ⟨ht.wrote.congr rfl rfl hu.symm, ⟨?_, ?_, ht.contents.held⟩, ht.lengths, hseen, ht.window, ?_⟩
    · simp [Tracking.Sound]
    · intro p
      have hstage := ht.contents.slots p
      have hidle := hl.idle h.queue ht.wrote.ringed p
      dsimp only
      revert hstage hidle
      cases s.c.q.states p <;> simp [Tracking.Stage, Called, DescState.code, Ready, tracking]
    · have hback := ht.back
      rw [hu] at hback
      refine (forall₂_range hback).imp ?_
      rintro j d ⟨hj, o, ho, -⟩
      exact ⟨o, ho, fun h1 _ => absurd hj (by omega)⟩

theorem chunk_eq {a : RxClient} {data : List UInt8} (hb : a.dbuffSize ≠ 0) (hn : 1 ≤ data.length) (ts : Timestamp)
    (j : ℕ) : chunk a ⟨data, numDescs a data, j, ts⟩ = slice data (a.dbuffSize * j) a.dbuffSize := by
  unfold chunk
  dsimp only
  split
  · rename_i hj
    have hpos : 0 < numDescs a data := Nat.div_pos (by omega) (by omega)
    have hceil : data.length + a.dbuffSize - 1 < a.dbuffSize * (numDescs a data + 1) :=
      Nat.lt_mul_div_succ _ (by omega)
    rw [slice, List.take_of_length_le]
    rw [List.length_drop]
    have hmul : a.dbuffSize * (numDescs a data + 1) = a.dbuffSize * j + 2 * a.dbuffSize := by
      rw [hj, show numDescs a data + 1 = numDescs a data - 1 + 2 by omega]
      ring
    omega
  · rfl

theorem Delivering.supplied (h : Delivering base len s t k m i) (hlt : i < k.numDescs) : t.c.client.dcache ≠ [] := by
  intro hd
  obtain ⟨new, hlog⟩ := h.log
  have htotal := h.lined.total
  have henough := h.enough
  rw [hd, hlog, processes_append, List.length_append, List.length_nil] at htotal
  omega

theorem triggerFetch_fault {f : Fault} (hl : c.q.len ≠ 0) (h : triggerFetch env c = .error f) :
    f = .dma ∨ f = .stateAssertion := by
  unfold triggerFetch at h
  rw [if_neg hl] at h
  split at h
  · cases h
  split at h
  · cases h
  split at h
  · cases h
    exact .inr rfl
  split at h
  · cases h
    exact .inl rfl
  · cases h

theorem triggerWriteback_fault {f : Fault} (h : triggerWriteback LanRx.subclass env c = .error f) : f = .dma := by
  unfold triggerWriteback at h
  dsimp only [LanRx.subclass] at h
  split at h
  · cases h
  split at h
  · cases h
  split at h
  · cases h
    rfl
  · cases h

theorem processLoop_fault {f : Fault} {a b : ℕ} : processLoop LanRx.subclass env c a b ≠ .error f := by
  intro h
  unfold processLoop at h
  dsimp only at h
  split at h
  · cases h
  · cases h

theorem fetchDone_fault {f : Fault} {pos cnt i : ℕ} {buf : List UInt8} :
    fetchDone LanRx.subclass c pos cnt i buf ≠ .error f := by
  intro h
  unfold fetchDone at h
  dsimp only [LanRx.subclass] at h
  split at h
  · cases h
  · cases h

theorem dataFetch_fault {f : Fault} {p : Slot} {addr off total : ℕ} (h : dataFetch env c p addr off total = .error f) :
    f = .dma ∨ f = .stateAssertion := by
  unfold dataFetch at h
  dsimp only at h
  split at h
  · cases h
    exact .inl rfl
  split at h
  · cases h
  split at h
  · cases h
  · cases h
    exact .inr rfl

theorem dataWritten_fault {f : Fault} {p : Slot} (h : dataWritten c p = .error f) : f = .stateAssertion := by
  unfold dataWritten at h
  split at h
  · cases h
  · cases h
    rfl

theorem writebackDone_fault {f : Fault} {pos n : ℕ} (hl : c.q.len ≠ 0) (h : writebackDone c pos n = .error f) :
    f = .stateAssertion := by
  unfold writebackDone at h
  rw [if_neg hl] at h
  split at h
  · cases h
  split at h
  · cases h
    rfl
  · cases h

theorem resume_fault {f : Fault} (hd : c.client.dcache ≠ [])
    (h : DescriptorQueue.resume LanRx.subclass env c k = .error f) : f = .dma := by
  obtain ⟨p, dcache, hp⟩ := List.exists_cons_of_ne_nil hd
  have hr : LanRx.subclass.resume env.client c.client c.q.ctxs k =
      .ok (delivery c.client p dcache (c.q.ctxs p).desc k) := by
    change LanRx.resume c.client c.q.ctxs k = _
    unfold LanRx.resume
    rw [hp]
    rfl
  unfold DescriptorQueue.resume at h
  rw [hr] at h
  change (if _ then Except.error Fault.dma else Except.ok _) = Except.error f at h
  split at h
  · cases h
    rfl
  · cases h

/-- The only thing that can go wrong in a receive queue is an address that is not mapped. -/
theorem exec_fault {f : Fault} (hi : Inv LanRx.subclass c) (hs : c.stack = cmd :: rest)
    (hd : cmd.isResume = true → c.client.dcache ≠ [])
    (h : exec LanRx.subclass env { c with stack := rest } cmd = .error f) : f = .dma := by
  have hstate : f ≠ .stateAssertion := by
    rintro rfl
    exact hi.no_assertion ⟨env, cmd, rest, hs, h⟩
  have hl : c.q.len ≠ 0 := by
    have := hi.window.idx_lt
    omega
  cases cmd with
  | triggerFetch => exact (triggerFetch_fault (c := { c with stack := rest }) hl h).resolve_right hstate
  | triggerProcess => cases h
  | triggerWriteback => exact triggerWriteback_fault h
  | processLoop a b => exact absurd h processLoop_fault
  | fetchDone pos cnt a buf => exact absurd h fetchDone_fault
  | dataFetch p addr off total => exact (dataFetch_fault h).resolve_right hstate
  | dataWritten p => exact absurd (dataWritten_fault h) hstate
  | writebackDone pos n => exact absurd (writebackDone_fault (c := { c with stack := rest }) hl h) hstate
  | resume k' => exact resume_fault (c := { c with stack := rest }) (hd rfl) h

theorem Delivering.fault {f : Fault} (h : Delivering base len s t k m i) (hf : Faults LanRx.subclass t.c f) :
    f = .dma := by
  obtain ⟨env, cmd, rest, hs, he⟩ := hf
  refine exec_fault (Inv.reachable h.queue) hs (fun hc => ?_) he
  cases cmd with
  | resume k' => exact h.supplied (h.resumes hs rfl).1
  | _ => cases hc

end

/-- A descriptor that was written back for a part of `n` bytes: `DD`, `EOF` and the length. -/
structure Received (n : ℕ) (last : Bool) (d : List UInt8) : Prop where
  pktLen : get16 d 4 = n
  dd : (qword1 d).testBit 0 = true
  eof : (qword1 d).testBit 1 = last

theorem slice_field {d : List UInt8} {off n v off' n' : ℕ} (hd : d.length = 32) (hn : off + n ≤ 32)
    (ho : off' + n' ≤ off ∨ off + n ≤ off') : slice (overwrite d off (leBytes n v)) off' n' = slice d off' n' :=
  slice_overwrite_ne (by rw [leBytes_length]; omega) (by rwa [leBytes_length])

theorem qword1_overwrite {d : List UInt8} (h : d.length = 32) (v : ℕ) :
    qword1 (overwrite d 8 (leBytes 8 v)) = v % 2 ^ 64 := by
  have hs := @slice_overwrite d 8 (leBytes 8 v) (by omega)
  rw [leBytes_length] at hs
  rw [qword1, hs, leNat_leBytes, show 256 ^ 8 = 2 ^ 64 by norm_num]

theorem Received.stamped {o : List UInt8} (hl : o.length = 32) (hz : qword1 o = 0) {pktlen : ℕ} (hn : pktlen < 65536)
    (ts : Timestamp) :
    (receivedDesc o pktlen ts false).length = 32 ∧ Received pktlen false (receivedDesc o pktlen ts false) := by
  refine ⟨receivedDesc_length hl _ _ _, ?_⟩
  unfold receivedDesc
  dsimp only
  rw [if_neg Bool.false_ne_true]
  have l0 : (overwrite o 4 (leBytes 2 pktlen)).length = 32 := length_field hl (by decide)
  have q0 : qword1 (overwrite o 4 (leBytes 2 pktlen)) = 0 := by
    rw [qword1, slice_field hl (by decide) (by decide)]
    exact hz
  rw [q0]
  set d := overwrite (overwrite o 4 (leBytes 2 pktlen)) 8 (leBytes 8 (0 ||| 1 ||| pktlen <<< 38)) with hd
  have l1 : d.length = 32 := length_field l0 (by decide)
  have hr : Received pktlen false d := by
    refine ⟨?_, ?_, ?_⟩
    · rw [hd, get16, slice_field l0 (by decide) (by decide)]
      exact (get16_put16 (by omega)).trans (Nat.mod_eq_of_lt hn)
    · rw [hd, qword1_overwrite l0, Nat.testBit_mod_two_pow]
      simp
    · rw [hd, qword1_overwrite l0, Nat.testBit_mod_two_pow]
      rw [Nat.testBit_or, Nat.testBit_shiftLeft]
      rfl
  split
  · exact hr
  · have la : (overwrite d 28 (leBytes 2 ts.time)).length = 32 := length_field l1 (by decide)
    have lb : (overwrite (overwrite d 28 (leBytes 2 ts.time)) 30 (leBytes 2 (ts.time >>> 16))).length = 32 :=
      length_field la (by decide)
    have hq : ∀ off' n', off' + n' ≤ 19 → slice (overwrite (overwrite (overwrite d 28 (leBytes 2 ts.time)) 30
        (leBytes 2 (ts.time >>> 16))) 19 (leBytes 1 ts.tsL)) off' n' = slice d off' n' := by
      intro off' n' h
      rw [slice_field lb (by decide) (by omega), slice_field la (by decide) (by omega),
        slice_field l1 (by decide) (by omega)]
    refine ⟨?_, ?_, ?_⟩
    · rw [get16, hq _ _ (by decide)]
      exact hr.pktLen
    · rw [qword1, hq _ _ (by decide)]
      exact hr.dd
    · rw [qword1, hq _ _ (by decide)]
      exact hr.eof

theorem receivedDesc_received {o : List UInt8} (hl : o.length = 32) (hz : qword1 o = 0) {pktlen : ℕ}
    (hn : pktlen < 65536) (ts : Timestamp) (last : Bool) : Received pktlen last (receivedDesc o pktlen ts last) := by
  obtain ⟨hd, hr⟩ := Received.stamped hl hz hn ts
  cases last with
  | false => exact hr
  | true =>
    have hlast : receivedDesc o pktlen ts true = overwrite (receivedDesc o pktlen ts false) 8
        (leBytes 8 (qword1 (receivedDesc o pktlen ts false) ||| 2 ||| 8)) := rfl
    rw [hlast]
    refine ⟨?_, ?_, ?_⟩
    · rw [get16, slice_field hd (by decide) (by decide)]
      exact hr.pktLen
    · rw [qword1_overwrite hd, Nat.testBit_mod_two_pow, Nat.testBit_or, Nat.testBit_or, hr.dd]
      rfl
    · rw [qword1_overwrite hd, Nat.testBit_mod_two_pow, Nat.testBit_or, Nat.testBit_or, hr.eof]
      rfl

section

variable {base len m i : ℕ} {s t : Traced RxClient RxPacket} {k : RxPacket} {c c' : Config RxClient RxPacket}
  {data : List UInt8}

/-- A frame has been handed over: `m` descriptors were written back before it, and it used the next ones. -/
structure Delivered (base len : ℕ) (s : Traced RxClient RxPacket) (c' : Config RxClient RxPacket) (data : List UInt8)
    (m : ℕ) : Prop where
  oldest : s.c.client.dcache = (List.range s.c.client.dcache.length).map fun r => slot maxActiveDescs (m + r)
  posted : m + data.length ⌈/⌉ s.c.client.dbuffSize ≤ s.seen.length
  consumed : s.c.client.dcache.drop (data.length ⌈/⌉ s.c.client.dbuffSize) <+: c'.client.dcache
  before : written 32 s.c.log = turns base len 32 m
  after : written 32 c'.log = turns base len 32 (m + data.length ⌈/⌉ s.c.client.dbuffSize)
  writes : dataWrites c'.log = dataWrites s.c.log ++
    (List.range (data.length ⌈/⌉ s.c.client.dbuffSize)).map fun i => (slot maxActiveDescs (m + i),
      pktAddr (s.seen.getD (m + i) []), slice data (s.c.client.dbuffSize * i) s.c.client.dbuffSize)
  fields : ∃ ds, returned 32 c'.log = returned 32 s.c.log ++ ds ∧
    List.Forall₂ (fun i d => Received (slice data (s.c.client.dbuffSize * i) s.c.client.dbuffSize).length
      (i + 1 = data.length ⌈/⌉ s.c.client.dbuffSize) d) (List.range (data.length ⌈/⌉ s.c.client.dbuffSize)) ds

theorem returned_append (descLen : ℕ) (a b : List Event) :
    returned descLen (a ++ b) = returned descLen a ++ returned descLen b := by
  rw [returned, ringLog_append, List.flatMap_append]
  rfl

theorem Lined.drop {n : ℕ} (h : Lined c m) (h' : Lined c' (m + n)) (hn : n ≤ c.client.dcache.length)
    (hp : (processes c.log).length ≤ (processes c'.log).length) : c.client.dcache.drop n <+: c'.client.dcache := by
  have htotal := h.total
  have htotal' := h'.total
  obtain ⟨x, hx⟩ := Nat.exists_eq_add_of_le (show c.client.dcache.length - n ≤ c'.client.dcache.length by omega)
  have hlen : c.client.dcache.length = n + (c.client.dcache.length - n) := by omega
  have hdrop : c.client.dcache.drop n =
      (List.range (c.client.dcache.length - n)).map fun r => slot maxActiveDescs (m + n + r) := by
    rw [h.held, hlen, List.range_add, List.map_append, List.drop_left' (by simp), List.map_map]
    simp only [List.length_map, List.length_range, List.length_append, Nat.add_sub_cancel_left]
    apply List.map_congr_left
    intro r _
    exact congrArg (slot maxActiveDescs) (Nat.add_assoc _ _ _).symm
  rw [hdrop, h'.held, hx, List.range_add, List.map_append]
  exact List.prefix_append _ _

theorem Delivering.over (h : Delivering base len s t k m i) (hs : t.c.stack = []) : i = k.numDescs := by
  have hloop := h.loop
  have hle := h.le
  rw [hs] at hloop
  split at hloop
  · cases hloop
  · omega

theorem Delivering.fields (h : Delivering base len s t k m i) (hs : t.c.stack = []) (hf : Followed base len s)
    (hw : Wrote base len s.c m) (hrest : s.c.stack = []) :
    ∃ ds, returned 32 t.c.log = returned 32 s.c.log ++ ds ∧
      List.Forall₂ (fun j d => ∃ o ∈ s.seen, o.length = 32 ∧ d = filled s k j o) (List.range k.numDescs) ds := by
  obtain rfl := h.over hs
  obtain ⟨orig, done, ht⟩ := h.traces
  obtain rfl := h.lined.at_rest h.queue ht.wrote.ringed hs
  obtain ⟨orig', done', ht'⟩ := hf.traces
  obtain rfl := ringed_unique hw.ringed ht'.wrote.ringed
  obtain ⟨new, hlog⟩ := h.log
  have hback := ht.back
  have hlen := ht'.back.length_eq
  rw [hs, show underway ([] : List (Cmd RxPacket)) = 0 from rfl, Nat.add_zero, h.descLen] at hback
  rw [hrest, show underway ([] : List (Cmd RxPacket)) = 0 from rfl, Nat.add_zero, hf.descLen, List.length_range] at hlen
  refine ⟨returned 32 new, by rw [hlog, returned_append], ?_⟩
  have hd := List.forall₂_drop m hback
  rw [hlog, returned_append, List.drop_left' hlen.symm, List.range_add, List.drop_left' (List.length_range)] at hd
  rw [List.forall₂_map_left_iff] at hd
  refine (forall₂_range hd).imp ?_
  rintro j d ⟨hj, o, ho, ha⟩
  have hd := ha (by omega) (by omega)
  have hin := h.inside.1
  have hold : s.seen[m + j]? = some o := by
    obtain ⟨later, hl⟩ := h.seen
    rwa [← hl, List.getElem?_append_left (by omega)] at ho
  refine ⟨o, List.mem_of_getElem? hold, ?_, ?_⟩
  · rw [ht'.lengths o (List.mem_of_getElem? hold), hf.descLen]
  · rwa [Nat.add_sub_cancel_left] at hd

theorem Delivering.delivered {env : RxEnv} (h : Delivering base len s t (firstTurn env s.c.client data) m i)
    (hs : t.c.stack = []) (hf : Followed base len s) (hl : Lined s.c m) (hw : Wrote base len s.c m)
    (hrest : s.c.stack = []) (hn : 1 ≤ data.length) (hz : ∀ o ∈ s.seen, get64 o 8 = 0)
    (hle : numDescs s.c.client data ≤ s.c.client.dcache.length) : Delivered base len s t.c data m := by
  obtain ⟨b, hb, hb', hbuf⟩ := hf.dbuff
  obtain ⟨ds, hds, hret⟩ := h.fields hs hf hw hrest
  obtain rfl := h.over hs
  obtain ⟨orig, done, ht⟩ := h.traces
  obtain rfl := h.lined.at_rest h.queue ht.wrote.ringed hs
  obtain ⟨new, hlog⟩ := h.log
  have hpos : 0 < numDescs s.c.client data := Nat.div_pos (by omega) (by omega)
  refine ⟨hl.held, h.inside.1, ?_, ?_, ?_, ?_, ds, hds, ?_⟩
  · refine hl.drop h.lined hle ?_
    rw [hlog, processes_append, List.length_append]
    omega
  · have hwe := hw.written_eq
    rwa [hrest, hf.descLen] at hwe
  · have hwe := ht.wrote.written_eq
    rwa [hs, h.descLen] at hwe
  · refine h.writes.trans (congrArg _ (List.map_congr_left fun j _ => ?_))
    rw [part]
    exact congrArg (fun x => (_, _, x)) (chunk_eq (by omega) hn _ j)
  · refine hret.imp ?_
    rintro j d ⟨o, ho, hlen, rfl⟩
    have hc : chunk s.c.client { firstTurn env s.c.client data with i := j } =
        slice data (s.c.client.dbuffSize * j) s.c.client.dbuffSize := chunk_eq (by omega) hn _ j
    have hlt : (slice data (s.c.client.dbuffSize * j) s.c.client.dbuffSize).length < 65536 := by
      rw [slice, List.length_take]
      omega
    rw [filled, hc]
    have hlast : decide (j = numDescs s.c.client data - 1) =
        decide (j + 1 = data.length ⌈/⌉ s.c.client.dbuffSize) := by
      rw [decide_eq_decide]
      change _ ↔ j + 1 = numDescs s.c.client data
      omega
    rw [← hlast]
    exact receivedDesc_received hlen (hz o ho) hlt _ _

theorem Delivering.nested (h : Delivering base len s t k m i)
    (hn : Relation.ReflTransGen (Nested LanRx.subclass) t.c c') :
    ∃ t' i', t'.c = c' ∧ Delivering base len s t' k m i' := by
  induction hn with
  | refl => exact ⟨t, i, rfl, h⟩
  | tail _ hstep ih =>
    obtain ⟨t', i', rfl, h'⟩ := ih
    obtain ⟨env, cmd, rest, hs, he⟩ := hstep
    obtain ⟨i'', h''⟩ := h'.exec hs he
    exact ⟨_, i'', rfl, h''⟩

end

theorem cascade_nested {env : Env RxEnv} {n : ℕ} {c c' : Config RxClient RxPacket}
    (h : cascade LanRx.subclass env n c = .ok c') : Relation.ReflTransGen (Nested LanRx.subclass) c c' := by
  induction n generalizing c with
  | zero =>
    cases h
    exact .refl
  | succ n ih =>
    rw [cascade] at h
    split at h
    · cases h
      exact .refl
    · rename_i cmd rest hs
      obtain ⟨d, he, hd⟩ := bind_ok h
      exact .head ⟨env, cmd, rest, hs, he⟩ (ih hd)

/-- What `packet_received` does with a frame: it leaves everything as it was when there are too few
descriptors, and otherwise its cascade comes to an end with the frame delivered. -/
theorem packetReceived_delivers (base len : ℕ) (s : Traced RxClient RxPacket) (h : (receiving base len).Reachable s)
    (hs : s.c.stack = []) (env : Env RxEnv) (data : List UInt8) (hn : 1 ≤ data.length)
    (hz : ∀ o ∈ s.seen, get64 o 8 = 0) :
    (s.c.client.dcache.length < data.length ⌈/⌉ s.c.client.dbuffSize →
      receive LanRx.subclass env s.c data = .ok s.c) ∧
    (data.length ⌈/⌉ s.c.client.dbuffSize ≤ s.c.client.dcache.length →
      ∃ c m, receive LanRx.subclass env s.c data = .ok c ∧ Acc (fun b a => Nested LanRx.subclass a b) c ∧
        ∀ c', Relation.ReflTransGen (Nested LanRx.subclass) c c' →
          (c'.stack = [] → Delivered base len s c' data m) ∧ ∀ f, Faults LanRx.subclass c' f → f = .dma) := by
  have hf := Followed.reachable h
  have hi := Inv.reachable hf.queue
  obtain ⟨b, hb, -, hbuf⟩ := hf.dbuff
  rcases receive_cases env (show s.c.client.dbuffSize ≠ 0 by omega) hi.enabled hn with ⟨hlt, hr⟩ | ⟨hle, -, hr⟩
  · change s.c.client.dcache.length < data.length ⌈/⌉ s.c.client.dbuffSize at hlt
    exact ⟨fun _ => hr, fun hle => absurd hle (by omega)⟩
  · refine ⟨fun hlt => absurd hlt (Nat.not_lt.mpr hle), fun _ => ?_⟩
    obtain ⟨m, hl, hw, hd⟩ := Delivering.start hf hs hn hle env
    rw [hs] at hr
    refine ⟨_, m, hr, acc_nested lanRx_shrinks (Inv.reachable hd.queue), fun c' hc' => ?_⟩
    obtain ⟨t, i, rfl, ht⟩ := hd.nested hc'
    exact ⟨fun hs' => ht.delivered hs' hf hl hw hs hn hz hle, fun f => ht.fault⟩

def freshRing : Traced RxClient RxPacket :=
  ⟨Config.enabled 0x1000 4 32 ⟨[], 128, 0, 0, false⟩, 0, []⟩

/-- Descriptors whose buffers are at `0x10000`, `0x20000` and `0x30000`. -/
def bufferMem : ℕ → UInt8
  | 0x1002 => 1 | 0x1022 => 2 | 0x1042 => 3
  | _ => 0

def ringEnv : Env RxEnv := ⟨bufferMem, fun _ _ => true, ⟨fun _ => 0, 0, fun _ => 0⟩⟩

theorem packetReceived_delivers_three :
    ∃ s c c' m, (receiving 0x1000 4).Reachable s ∧ receive LanRx.subclass ringEnv s.c (List.replicate 300 7) = .ok c ∧
      cascade LanRx.subclass ringEnv 100 c = .ok c' ∧ Delivered 0x1000 4 s c' (List.replicate 300 7) m ∧
      dataWrites c'.log = [(0, 0x10000, List.replicate 128 7), (1, 0x20000, List.replicate 128 7),
        (2, 0x30000, List.replicate 44 7)] := by
  have hrun : (post LanRx.subclass ringEnv (fun _ => true) 4 0x100000000 100 [3] freshRing).map (fun s =>
      (s.c.stack.isEmpty, s.seen.all (fun o => get64 o 8 = 0), s.c.client.dcache.length, s.c.client.dbuffSize)) =
      some (true, true, 3, 128) := by decide +kernel
  have hframe : (post LanRx.subclass ringEnv (fun _ => true) 4 0x100000000 100 [3] freshRing).bind (fun s =>
      (receive LanRx.subclass ringEnv s.c (List.replicate 300 7) >>= fun c =>
        cascade LanRx.subclass ringEnv 100 c).toOption.map fun c' => (c'.stack.isEmpty, dataWrites c'.log)) =
      some (true, [(0, 0x10000, List.replicate 128 7), (1, 0x20000, List.replicate 128 7),
        (2, 0x30000, List.replicate 44 7)]) := by decide +kernel
  obtain ⟨s, hp, hf⟩ := Option.map_eq_some_iff.mp hrun
  rw [hp, Option.bind_some] at hframe
  simp only [Prod.mk.injEq, List.isEmpty_iff, List.all_eq_true, decide_eq_true_eq] at hf
  obtain ⟨hs, hz, hk, hd⟩ := hf
  have hstart : (receiving 0x1000 4).start freshRing :=
    ⟨⟨rfl, rfl, rfl, by norm_num, by norm_num, rfl, rfl, rfl, fun _ => rfl, rfl, rfl, rfl⟩, rfl, rfl, 1, by decide,
      by decide, rfl⟩
  have hr : (receiving 0x1000 4).Reachable s := reachable_post (fun _ _ _ h => h) (.start hstart) hp
  obtain ⟨c', hrc, hobs⟩ := ok_of_map hframe
  obtain ⟨c₁, hc₁, hcas⟩ := bind_ok hrc
  obtain ⟨c, m, hc, -, hall⟩ := (packetReceived_delivers 0x1000 4 s hr hs ringEnv (List.replicate 300 7)
    (by rw [List.length_replicate]; norm_num) hz).2 (by rw [hk, hd, List.length_replicate]; decide)
  obtain rfl : c = c₁ := by
    rw [hc] at hc₁
    exact Except.ok.inj hc₁
  rw [Prod.mk.injEq, List.isEmpty_iff] at hobs
  exact ⟨s, c, c', m, hr, hc, hcas, (hall c' (cascade_nested hcas)).1 hobs.1, hobs.2⟩

end Vmux.RxDelivery
