import Vmux.AdminQueue

namespace Vmux.SchedNodes

open Bytes DescriptorQueue AdminQueue

/-- What a command takes from a counter: a range of ids, or a look at the next one. -/
inductive Draw
  | nodes (count : ℕ)
  | queue
  | nothing
deriving DecidableEq, Repr

def Draw.Takes : Draw → Prop
  | nodes count => count ≠ 0
  | queue => True
  | nothing => False

def idsFrom : ℕ → List Draw → List ℕ
  | _, [] => []
  | next, .nodes count :: rest => List.range' next count ++ idsFrom (next + count) rest
  | next, .queue :: rest => next :: idsFrom next rest
  | next, .nothing :: rest => idsFrom next rest

theorem le_of_mem_idsFrom {next id : ℕ} {draws : List Draw} (h : id ∈ idsFrom next draws) : next ≤ id := by
  induction draws generalizing next with
  | nil => cases h
  | cons d draws ih =>
    cases d with
    | nodes count =>
      obtain h | h := List.mem_append.1 h
      · exact (List.mem_range'_1.1 h).1
      · have := ih h
        omega
    | queue =>
      obtain rfl | h := List.mem_cons.1 h
      · exact le_refl id
      · exact ih h
    | nothing => exact ih h

theorem mem_idsFrom_self (next : ℕ) (draws : List Draw) : next ∈ idsFrom next draws ↔ ∃ d ∈ draws, d.Takes := by
  induction draws with
  | nil => simp [idsFrom]
  | cons d draws ih =>
    cases d with
    | nodes count =>
      rw [idsFrom, List.mem_append, List.mem_range'_1, List.exists_mem_cons_iff]
      by_cases hc : count = 0
      · subst hc
        simpa [Draw.Takes] using ih
      · constructor
        · exact fun _ => .inl hc
        · exact fun _ => .inl ⟨le_refl next, by omega⟩
    | queue => simp [idsFrom, Draw.Takes]
    | nothing => simpa [idsFrom, Draw.Takes] using ih

/-- The ids are distinct exactly if nothing takes one after a queue has. -/
theorem idsFrom_nodup_iff (next : ℕ) (draws : List Draw) :
    (idsFrom next draws).Nodup ↔ draws.Pairwise fun d e => d = .queue → ¬e.Takes := by
  induction draws generalizing next with
  | nil => simp [idsFrom]
  | cons d draws ih =>
    rw [List.pairwise_cons]
    cases d with
    | nodes count =>
      have hdisjoint : (List.range' next count).Disjoint (idsFrom (next + count) draws) := by
        intro id hid hrest
        have hlow := le_of_mem_idsFrom hrest
        have hhigh := (List.mem_range'_1.1 hid).2
        omega
      rw [idsFrom, List.nodup_append']
      simp [List.nodup_range', hdisjoint, ih]
    | queue =>
      rw [idsFrom, List.nodup_cons, mem_idsFrom_self, ih]
      simp
    | nothing => simp [idsFrom, ih]

/-- One call of `admin_desc_ctx::process`. -/
structure Command where
  env : AdminEnv
  ctxs : Slot → DescCtx
  p : Slot

def opcodeAddSchedElems : ℕ := 0x0401
def opcodeAddTxqs : ℕ := 0x0C30

def Command.opcode (c : Command) : ℕ := AdminQueue.opcode (c.ctxs c.p).desc

/-- `add_elem->hdr.num_elems` -/
def numElems (data : List UInt8) : ℕ := get16 data 4

def nodeTeid (data : List UInt8) (i : ℕ) : ℕ := get32 data (8 + 24 * i + 4)

/-- `add_txqs->txqs[0].q_teid` -/
def qTeid (data : List UInt8) : ℕ := get32 data 12

/-- The ids in the buffer of a command after it was handled. -/
def Command.ids (c : Command) (h : Handled) : List ℕ :=
  if c.opcode = opcodeAddSchedElems then (List.range (numElems (c.ctxs c.p).data)).map (nodeTeid h.data)
  else if c.opcode = opcodeAddTxqs then [qTeid h.data]
  else []

def Command.draw (c : Command) : Draw :=
  if c.opcode = opcodeAddSchedElems then .nodes (numElems (c.ctxs c.p).data)
  else if c.opcode = opcodeAddTxqs then .queue
  else .nothing

def history : List Command → AdminDev → Except Fault (AdminDev × List ℕ)
  | [], dev => .ok (dev, [])
  | c :: cs, dev => do
    let h ← handle c.env dev c.ctxs c.p
    let r ← history cs h.dev
    .ok (r.1, c.ids h ++ r.2)

def elemsAdded (cs : List Command) : ℕ :=
  (cs.map fun c => if c.opcode = opcodeAddSchedElems then numElems (c.ctxs c.p).data else 0).sum

section

variable {env : AdminEnv} {dev : AdminDev} {ctxs : Slot → DescCtx} {p : Slot} {h : Handled} {data : List UInt8}

theorem replyData_eq {desc : List UInt8} {calls : List Output} (he : replyData desc data dev calls = .ok h) :
    h.dev = dev ∧ h.data = data := by
  obtain ⟨_, -, he⟩ := bind_ok he
  cases he
  exact ⟨rfl, rfl⟩

theorem addSchedElems_ids {n i : ℕ} {r : List UInt8 × AdminDev} (he : addSchedElems p n i data dev = .ok r)
    (hfew : dev.lastReturnedNode + n ≤ 0x100000000) :
    r.2.lastReturnedNode = dev.lastReturnedNode + n ∧ (∀ j < i, nodeTeid r.1 j = nodeTeid data j) ∧
      (List.range' i n).map (nodeTeid r.1) = List.range' dev.lastReturnedNode n := by
  induction n generalizing i data dev with
  | zero =>
    cases he
    simp
  | succ n ih =>
    obtain ⟨_, hneed, he⟩ := bind_ok he
    have hlen := need_length hneed
    obtain ⟨hlast, hkept, hids⟩ := ih he (by dsimp only; omega)
    have hnew : nodeTeid r.1 i = dev.lastReturnedNode := by
      rw [hkept i (by omega), nodeTeid, get32_put32 (by omega)]
      omega
    refine ⟨by rw [hlast]; dsimp only; omega, fun j hj => ?_, ?_⟩
    · rw [hkept j (by omega)]
      exact get32_put32_ne (by omega) (by omega)
    · rw [List.range'_succ, List.range'_succ, List.map_cons, hnew, hids]

theorem handle_addSchedElems (he : handle env dev ctxs p = .ok h) (hop : opcode (ctxs p).desc = opcodeAddSchedElems) :
    addSchedElems p (numElems (ctxs p).data) 0 (ctxs p).data dev = .ok (h.data, h.dev) := by
  unfold opcodeAddSchedElems at hop
  unfold handle at he
  simp only [hop] at he
  obtain ⟨_, -, he⟩ := bind_ok he
  obtain ⟨r, hr, he⟩ := bind_ok he
  obtain ⟨h1, h2⟩ := replyData_eq he
  rw [h1, h2]
  exact hr

theorem handle_addTxqs (he : handle env dev ctxs p = .ok h) (hop : opcode (ctxs p).desc = opcodeAddTxqs) :
    56 ≤ (ctxs p).data.length ∧ h.data = addTxqs dev (ctxs p).data := by
  unfold opcodeAddTxqs at hop
  unfold handle at he
  simp only [hop] at he
  obtain ⟨_, hneed, he⟩ := bind_ok he
  split at he
  · cases he
  · cases he
    exact ⟨need_length hneed, rfl⟩

theorem handle_nodes (he : handle env dev ctxs p = .ok h) (hop : opcode (ctxs p).desc ≠ opcodeAddSchedElems) :
    h.dev.lastReturnedNode = dev.lastReturnedNode ∧ h.dev.schedNodes = dev.schedNodes := by
  have hsame (x : Handled) (hx : Except.ok x = (.ok h : Except Fault Handled))
      (hdev : x.dev.lastReturnedNode = dev.lastReturnedNode ∧ x.dev.schedNodes = dev.schedNodes) :
      h.dev.lastReturnedNode = dev.lastReturnedNode ∧ h.dev.schedNodes = dev.schedNodes := by
    cases hx
    exact hdev
  have hreply {dev' : AdminDev} {desc data : List UInt8} {calls : List Output}
      (hr : replyData desc data dev' calls = .ok h)
      (hdev : dev'.lastReturnedNode = dev.lastReturnedNode ∧ dev'.schedNodes = dev.schedNodes) :
      h.dev.lastReturnedNode = dev.lastReturnedNode ∧ h.dev.schedNodes = dev.schedNodes := by
    rw [(replyData_eq hr).1]
    exact hdev
  unfold handle at he
  dsimp only at he
  split at he
  all_goals with_reducible first
    | exact hsame _ he ⟨rfl, rfl⟩
    | exact hreply he ⟨rfl, rfl⟩
    | skip
  · split at he <;> exact hsame _ he ⟨rfl, rfl⟩
  · split at he <;> exact hsame _ he ⟨rfl, rfl⟩
  · refine hreply he ?_
    split <;> exact ⟨rfl, rfl⟩
  · obtain ⟨_, -, he⟩ := bind_ok he
    obtain ⟨_, -, he⟩ := bind_ok he
    exact hreply he ⟨rfl, rfl⟩
  · obtain ⟨_, -, he⟩ := bind_ok he
    exact hsame _ he ⟨rfl, rfl⟩
  · obtain ⟨_, -, he⟩ := bind_ok he
    obtain ⟨_, -, he⟩ := bind_ok he
    exact hsame _ he ⟨rfl, rfl⟩
  · obtain ⟨_, -, he⟩ := bind_ok he
    obtain ⟨_, -, he⟩ := bind_ok he
    obtain ⟨_, -, he⟩ := bind_ok he
    exact hsame _ he ⟨rfl, rfl⟩
  · exact absurd ‹_› hop
  · obtain ⟨_, -, he⟩ := bind_ok he
    split at he
    · cases he
    · exact hsame _ he ⟨rfl, rfl⟩
  · obtain ⟨_, -, he⟩ := bind_ok he
    exact hreply he ⟨rfl, rfl⟩
  · obtain ⟨_, -, he⟩ := bind_ok he
    exact hreply he ⟨rfl, rfl⟩

theorem qTeid_addTxqs (hlen : 56 ≤ data.length) (hfew : dev.lastReturnedNode < 0x100000000) :
    qTeid (addTxqs dev data) = dev.lastReturnedNode := by
  have hput {off n v : ℕ} {l : List UInt8} (hl : 56 ≤ l.length) (ho : off + n ≤ 56) :
      56 ≤ (overwrite l off (leBytes n v)).length := by
    rw [overwrite_length (by rw [leBytes_length]; omega)]
    exact hl
  have hother {off n v : ℕ} {l : List UInt8} (hl : 56 ≤ l.length) (ho : 16 ≤ off) (hn : off + n ≤ 56) :
      qTeid (overwrite l off (leBytes n v)) = qTeid l := by
    rw [qTeid, get32, slice_overwrite_ne (by rw [leBytes_length]; omega) (.inl ho)]
    rfl
  have h0 : 56 ≤ (put8 4 1 (put32 0 lastUsedParentNode data)).length := hput (hput hlen (by omega)) (by omega)
  have h1 : 56 ≤ (put32 12 dev.lastReturnedNode (put8 4 1 (put32 0 lastUsedParentNode data))).length :=
    hput h0 (by omega)
  have h2 : 56 ≤ (put8 40 5 (put32 12 dev.lastReturnedNode (put8 4 1 (put32 0 lastUsedParentNode data)))).length :=
    hput h1 (by omega)
  have h3 : 56 ≤ (put16 46 100 (put8 40 5 (put32 12 dev.lastReturnedNode
      (put8 4 1 (put32 0 lastUsedParentNode data))))).length := hput h2 (by omega)
  unfold addTxqs
  rw [put16, hother h3 (by omega) (by omega), put16, hother h2 (by omega) (by omega), put8,
    hother h1 (by omega) (by omega), qTeid, get32_put32 (by omega)]
  omega

theorem handle_draw {c : Command} (he : handle c.env dev c.ctxs c.p = .ok h)
    (hfew : dev.lastReturnedNode + elemsAdded [c] < 0x80000000) (rest : List Draw) :
    h.dev.lastReturnedNode = dev.lastReturnedNode + elemsAdded [c] ∧
      c.ids h ++ idsFrom h.dev.lastReturnedNode rest = idsFrom dev.lastReturnedNode (c.draw :: rest) := by
  simp only [elemsAdded, List.map_cons, List.map_nil, List.sum_cons, List.sum_nil, Nat.add_zero] at hfew ⊢
  unfold Command.ids Command.draw
  by_cases hadd : c.opcode = opcodeAddSchedElems
  · rw [if_pos hadd] at hfew ⊢
    obtain ⟨hlast, -, hids⟩ := addSchedElems_ids (handle_addSchedElems he hadd) (by omega)
    rw [if_pos hadd, if_pos hadd, List.range_eq_range', hids, hlast]
    exact ⟨rfl, rfl⟩
  · obtain ⟨hlast, -⟩ := handle_nodes he hadd
    rw [if_neg hadd] at hfew ⊢
    rw [if_neg hadd, if_neg hadd, hlast]
    by_cases htxqs : c.opcode = opcodeAddTxqs
    · obtain ⟨hlen, hdata⟩ := handle_addTxqs he htxqs
      rw [if_pos htxqs, if_pos htxqs, hdata, qTeid_addTxqs hlen (by omega)]
      exact ⟨rfl, rfl⟩
    · rw [if_neg htxqs, if_neg htxqs]
      exact ⟨rfl, rfl⟩

theorem history_ids {cs : List Command} {dev' : AdminDev} {ids : List ℕ} (he : history cs dev = .ok (dev', ids))
    (hfew : dev.lastReturnedNode + elemsAdded cs < 0x80000000) :
    ids = idsFrom dev.lastReturnedNode (cs.map Command.draw) := by
  induction cs generalizing dev ids with
  | nil =>
    cases he
    rfl
  | cons c cs ih =>
    have hsplit : elemsAdded (c :: cs) = elemsAdded [c] + elemsAdded cs := by simp [elemsAdded]
    obtain ⟨h, hc, he⟩ := bind_ok he
    obtain ⟨r, hr, he⟩ := bind_ok he
    cases he
    obtain ⟨hlast, hids⟩ := handle_draw hc (by omega) (cs.map Command.draw)
    rw [ih hr (by omega), hids, List.map_cons]

end

/-- No command that takes an id comes after an `add_txqs`. -/
def QueueLast (cs : List Command) : Prop :=
  cs.Pairwise fun c d => c.opcode = opcodeAddTxqs → ¬d.draw.Takes

theorem draw_eq_queue (c : Command) : c.draw = .queue ↔ c.opcode = opcodeAddTxqs := by
  unfold Command.draw
  by_cases hadd : c.opcode = opcodeAddSchedElems
  · simp [hadd, opcodeAddSchedElems, opcodeAddTxqs]
  · by_cases htxqs : c.opcode = opcodeAddTxqs
    · simp [htxqs, opcodeAddSchedElems, opcodeAddTxqs]
    · simp [hadd, htxqs]

/-- The ids of nodes and queues are distinct exactly if the counter was not used after an `add_txqs`. -/
theorem node_ids_distinct_iff (dev dev' : AdminDev) (cs : List Command) (ids : List ℕ)
    (hdev : dev.lastReturnedNode = staticNodes + 1) (he : history cs dev = .ok (dev', ids))
    (hfew : elemsAdded cs < 2 ^ 31 - 60) :
    (∀ id ∈ ids, staticNodes < id) ∧ (ids.Nodup ↔ QueueLast cs) := by
  unfold staticNodes at hdev
  rw [history_ids he (by omega), idsFrom_nodup_iff, List.pairwise_map, hdev]
  refine ⟨fun id hid => le_of_mem_idsFrom hid, ?_⟩
  unfold QueueLast
  simp only [draw_eq_queue]

def freshDev : AdminDev where
  gllanRctl0 := 0
  vsi0FirstQueue := 0
  lastReturnedNode := staticNodes + 1
  schedNodes _ := none
  topoElem := List.replicate 180 0
  rules := []
  ctxAddr _ := List.replicate 22 0
  qtxEna _ := 0

/-- A command for 64 bytes of data, with the count of elements or queues in byte 4. -/
def post (opcode : ℕ) (count : UInt8) : Command where
  env := ⟨0, fun _ => 0⟩
  ctxs _ := ⟨.processing, 0, [0, 0x14] ++ leBytes 2 opcode ++ [64, 0] ++ List.replicate 26 0,
    [0, 0, 0, 0, count] ++ List.replicate 59 0⟩
  p := 0

/-- Two nodes, then a queue. -/
theorem node_ids_distinct_iff_queue :
    (∀ id ∈ [60, 61, 62], staticNodes < id) ∧
      ([60, 61, 62].Nodup ↔ QueueLast [post opcodeAddSchedElems 2, post opcodeAddTxqs 1]) := by
  have he : ∃ dev', history [post opcodeAddSchedElems 2, post opcodeAddTxqs 1] freshDev = .ok (dev', [60, 61, 62]) :=
    ⟨_, rfl⟩
  obtain ⟨dev', he⟩ := he
  exact node_ids_distinct_iff freshDev dev' _ _ rfl he (by decide)

/-- Two queues have the same id, and so has the node that is added after them. -/
theorem node_ids_repeat :
    ∃ dev', history [post opcodeAddTxqs 1, post opcodeAddTxqs 1, post opcodeAddSchedElems 1] freshDev =
      .ok (dev', [60, 60, 60]) := ⟨_, rfl⟩

end Vmux.SchedNodes
