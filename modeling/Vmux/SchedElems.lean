import Vmux.Contents
import Vmux.SchedNodes

namespace Vmux.SchedElems

open Bytes CircularWindow Transitions DescriptorQueue AdminQueue SchedNodes

def opcodeGetSchedElems : ℕ := 0x0404

/-- The places of its buffer that a command writes, as (offset, length). -/
def written (dev : AdminDev) (d data : List UInt8) : List (ℕ × ℕ) :=
  match opcode d with
  | 0x0208 => (List.range (get16 d params)).map fun i => (4 + 2 * i, 2)
  | 0x02A2 => [(12, 2)]
  | 0x0404 =>
    (if (staticElem (get32 data 4)).isSome then [(0, 4), (8, 1)] else []) ++
      if (dev.schedNodes (get32 data 4)).isSome then [(0, 24)] else []
  | 0x0401 => (List.range (numElems data)).map fun i => (8 + 24 * i + 4, 4)
  | 0x0C30 => [(0, 4), (4, 1), (12, 4), (40, 1), (46, 2), (50, 2)]
  | 0x0C31 => [(4, 1)]
  | 0x02A0 => [(0, 2), (6, 2), (12, 2)]
  | _ => []

def Apart (off n : ℕ) (l : List (ℕ × ℕ)) : Prop := ∀ w ∈ l, w.1 + w.2 ≤ off ∨ off + n ≤ w.1

section

variable {env : AdminEnv} {dev : AdminDev} {ctxs : Slot → DescCtx} {p : Slot} {h : Handled} {a b : List UInt8} {off n : ℕ}

structure Same (off n : ℕ) (a b : List UInt8) : Prop where
  length : b.length = a.length
  slice : slice b off n = slice a off n

theorem Same.refl (off n : ℕ) (a : List UInt8) : Same off n a a := ⟨rfl, rfl⟩

theorem Same.trans {c : List UInt8} (h : Same off n a b) (h' : Same off n b c) : Same off n a c :=
  ⟨h'.length.trans h.length, h'.slice.trans h.slice⟩

theorem Same.overwrite {o : ℕ} {bs : List UInt8} (h : Same off n a b) (ho : o + bs.length ≤ a.length)
    (hd : o + bs.length ≤ off ∨ off + n ≤ o) : Same off n a (overwrite b o bs) := by
  rw [← h.length] at ho
  exact h.trans ⟨overwrite_length ho, slice_overwrite_ne ho hd.symm⟩

theorem Same.put {o k v : ℕ} (h : Same off n a b) (ho : o + k ≤ a.length) (hd : o + k ≤ off ∨ off + n ≤ o) :
    Same off n a (Bytes.overwrite b o (leBytes k v)) :=
  h.overwrite (by rw [leBytes_length]; exact ho) (by rw [leBytes_length]; exact hd)

theorem allocRes_same {resType k i : ℕ} {c : List UInt8} (he : allocRes resType k i b = .ok c) (h : Same off n a b)
    (hd : ∀ j, i ≤ j → j < i + k → 4 + 2 * j + 2 ≤ off ∨ off + n ≤ 4 + 2 * j) : Same off n a c := by
  induction k generalizing i b with
  | zero =>
    cases he
    exact h
  | succ k ih =>
    obtain ⟨_, hneed, he⟩ := bind_ok he
    have hlen := need_length hneed
    rw [h.length] at hlen
    refine ih he ?_ fun j hj hk => hd j (by omega) (by omega)
    split
    · exact h.put hlen (hd i le_rfl (by omega))
    · exact h

theorem addSchedElems_same {k i : ℕ} {r : List UInt8 × AdminDev} (he : addSchedElems p k i b dev = .ok r)
    (h : Same off n a b) (hd : ∀ j, i ≤ j → j < i + k → 8 + 24 * j + 4 + 4 ≤ off ∨ off + n ≤ 8 + 24 * j + 4) :
    Same off n a r.1 := by
  induction k generalizing i b dev with
  | zero =>
    cases he
    exact h
  | succ k ih =>
    obtain ⟨_, hneed, he⟩ := bind_ok he
    have hlen := need_length hneed
    rw [h.length] at hlen
    refine ih he ?_ fun j hj hk => hd j (by omega) (by omega)
    exact h.put (by omega) (hd i le_rfl (by omega))

theorem static_same (hlen : (staticElem (get32 a 4)).isSome → 9 ≤ a.length)
    (hs : (staticElem (get32 a 4)).isSome → (4 ≤ off ∨ off + n ≤ 0) ∧ (9 ≤ off ∨ off + n ≤ 8)) :
    Same off n a (match staticElem (get32 a 4) with
      | some (parent, type) => put8 8 type (put32 0 parent a)
      | none => a) := by
  cases hc : staticElem (get32 a 4) with
  | none => exact .refl off n a
  | some e =>
    rw [hc] at hs hlen
    have h9 : 9 ≤ a.length := hlen rfl
    obtain ⟨h1, h2⟩ := hs rfl
    have hparent := (Same.refl off n a).put (k := 4) (v := e.1) (show 0 + 4 ≤ a.length by omega) (by omega)
    exact hparent.put (show 8 + 1 ≤ a.length by omega) (by omega)

theorem getSchedElem_same (he : getSchedElem dev ctxs a = .ok b) (hlen : schedUse dev (get32 a 4) ≤ a.length)
    (hs : (staticElem (get32 a 4)).isSome → (4 ≤ off ∨ off + n ≤ 0) ∧ (9 ≤ off ∨ off + n ≤ 8))
    (hn : (dev.schedNodes (get32 a 4)).isSome → 24 ≤ off ∨ off + n ≤ 0) : Same off n a b := by
  unfold getSchedElem at he
  dsimp only at he
  unfold schedUse at hlen
  have h9 : (staticElem (get32 a 4)).isSome → 9 ≤ a.length := by
    intro hsome
    rw [if_pos hsome] at hlen
    split at hlen
    · exact hlen
    · split at hlen
      · omega
      · exact hlen
  have hstatic := static_same h9 hs
  split at he
  · cases he
    exact hstatic
  · rename_i hfall
    rw [if_neg hfall] at hlen
    cases hnode : dev.schedNodes (get32 a 4) with
    | none =>
      rw [hnode] at he
      cases he
      exact hstatic
    | some e =>
      obtain ⟨q, o⟩ := e
      rw [hnode] at he hn hlen
      obtain ⟨_, hneed, he⟩ := bind_ok he
      cases he
      have hbytes : (slice (ctxs q).data o 24).length = 24 := slice_length (need_length hneed)
      simp only [Option.isSome_some, if_true] at hlen
      refine hstatic.overwrite (by rw [hbytes]; omega) ?_
      rw [hbytes]
      exact hn rfl

theorem Same.reply {desc : List UInt8} {calls : List Output} (hs : Same off n a b)
    (he : replyData desc b dev calls = .ok h) : Same off n a h.data := by
  rw [(replyData_eq he).2]
  exact hs

theorem Same.ok {x : Handled} (hs : Same off n a x.data) (he : Except.ok x = (.ok h : Except Fault Handled)) :
    Same off n a h.data := by
  cases he
  exact hs

theorem addTxqs_same (hlen : 56 ≤ a.length)
    (hd : Apart off n [(0, 4), (4, 1), (12, 4), (40, 1), (46, 2), (50, 2)]) : Same off n a (addTxqs dev a) := by
  unfold Apart at hd
  simp only [List.forall_mem_cons] at hd
  obtain ⟨h1, h2, h3, h4, h5, h6, -⟩ := hd
  have hq := (((Same.refl off n a).put (v := lastUsedParentNode) (show 0 + 4 ≤ a.length by omega) h1).put (v := 1)
    (show 4 + 1 ≤ a.length by omega) h2).put (v := dev.lastReturnedNode) (show 12 + 4 ≤ a.length by omega) h3
  exact ((hq.put (show 40 + 1 ≤ a.length by omega) h4).put (show 46 + 2 ≤ a.length by omega) h5).put
    (show 50 + 2 ≤ a.length by omega) h6

theorem addSwRules_same {desc : List UInt8} (he : addSwRules dev desc a = .ok h)
    (hd : Apart off n [(0, 2), (6, 2), (12, 2)]) : Same off n a h.data := by
  unfold Apart at hd
  simp only [List.forall_mem_cons] at hd
  obtain ⟨h1, h2, h3, -⟩ := hd
  obtain ⟨_, hneed, he⟩ := bind_ok he
  have hlen := need_length hneed
  unfold ruleUse at hlen
  refine Same.reply ?_ he
  exact (((Same.refl off n a).put (show 0 + 2 ≤ a.length by omega) h1).put (show 6 + 2 ≤ a.length by omega) h2).put
    (show 12 + 2 ≤ a.length by omega) h3

theorem handle_same (he : handle env dev ctxs p = .ok h)
    (hd : Apart off n (written dev (ctxs p).desc (ctxs p).data)) : Same off n (ctxs p).data h.data := by
  have hrefl := Same.refl off n (ctxs p).data
  unfold handle at he
  unfold written at hd
  dsimp only at he
  split at he
  all_goals rename_i hop
  all_goals with_reducible first
    | exact hrefl.ok he
    | exact hrefl.reply he
    | skip
  all_goals try simp only [hop] at hd
  · split at he <;> exact hrefl.ok he
  · split at he <;> exact hrefl.ok he
  · obtain ⟨_, -, he⟩ := bind_ok he
    obtain ⟨_, hres, he⟩ := bind_ok he
    refine Same.reply (allocRes_same hres hrefl fun j _ hj => ?_) he
    exact hd _ (List.mem_map_of_mem (List.mem_range.2 (by omega)))
  · obtain ⟨_, -, he⟩ := bind_ok he
    exact hrefl.ok he
  · obtain ⟨_, hneed, he⟩ := bind_ok he
    obtain ⟨_, -, he⟩ := bind_ok he
    have hlen := need_length hneed
    refine Same.ok ?_ he
    dsimp only
    split
    · rw [if_pos ‹_›] at hlen
      exact hrefl.put hlen (hd (12, 2) (by simp))
    · exact hrefl
  · obtain ⟨_, hneed, he⟩ := bind_ok he
    obtain ⟨_, hget, he⟩ := bind_ok he
    obtain ⟨_, -, he⟩ := bind_ok he
    refine Same.ok ?_ he
    refine getSchedElem_same hget (need_length hneed) (fun hs => ?_) fun hn => ?_
    · exact ⟨hd (0, 4) (by simp [hs]), hd (8, 1) (by simp [hs])⟩
    · exact hd (0, 24) (by simp [hn])
  · obtain ⟨_, -, he⟩ := bind_ok he
    obtain ⟨_, hadd, he⟩ := bind_ok he
    refine Same.reply (addSchedElems_same hadd hrefl fun j _ hj => ?_) he
    exact hd _ (List.mem_map_of_mem (List.mem_range.2 (by unfold numElems; omega)))
  · obtain ⟨_, hneed, he⟩ := bind_ok he
    split at he
    · cases he
    · exact Same.ok (addTxqs_same (need_length hneed) hd) he
  · obtain ⟨_, hneed, he⟩ := bind_ok he
    exact (hrefl.put (need_length hneed) (hd (4, 1) (by simp))).reply he
  · exact addSwRules_same he hd

end

/-- The admin queue, and the nodes that `add_sched_elems` has returned so far with their elements. -/
structure History where
  c : Config AdminClient Unit
  added : List (ℕ × List UInt8)

/-- The context that this command is about to hand to `process()`. -/
def running (c : Config AdminClient Unit) : Cmd Unit → Option Slot
  | .processLoop i j =>
    if i + j < c.q.activeCnt ∧ c.q.stateAt (c.q.activeFirstPos + (i + j)) = .prepared then
      some (slot maxActiveDescs (c.q.activeFirstPos + (i + j)))
    else none
  | _ => none

def newElem (dev : AdminDev) (data : List UInt8) (i : ℕ) : ℕ × List UInt8 :=
  (dev.lastReturnedNode + i, put32 4 (dev.lastReturnedNode + i) (slice data (8 + 24 * i) 24))

def addedBy (c : Config AdminClient Unit) (p : Slot) : List (ℕ × List UInt8) :=
  if opcode (c.q.ctxs p).desc = opcodeAddSchedElems then
    (List.range (numElems (c.q.ctxs p).data)).map (newElem c.client.dev (c.q.ctxs p).data)
  else []

inductive HistoryStep (s : History) : History → Prop
  | exec {c' : Config AdminClient Unit} (env : Env AdminEnv) (cmd : Cmd Unit) (rest : List (Cmd Unit))
      (hs : s.c.stack = cmd :: rest) (h : exec AdminQueue.subclass env { s.c with stack := rest } cmd = .ok c') :
      HistoryStep s ⟨c', s.added ++ (running s.c cmd).toList.flatMap (addedBy s.c)⟩
  | tail (t : ℕ) (ht : t < 0x100000000) (hs : s.c.stack = []) : HistoryStep s ⟨tailWrite s.c t, s.added⟩

/-- A data fetch neither moves the buffer of the node at `off` in the context `q` nor overwrites it, and
no command that is run in this context writes there. -/
def SparesNode (c : Config AdminClient Unit) (q : Slot) (off : ℕ) : Cmd Unit → Prop
  | .fetchDone pos cnt i buf => i < cnt → slot maxActiveDescs (pos + i) = q →
      ∀ addr len, prepare (slice buf (c.q.descLen * i) c.q.descLen) = .dataFetch addr len →
        len ≤ (c.q.ctxs q).data.length
  | .dataFetch p _ o total => p = q → Apart off 24 [(o, min (total - o) maxDmaSize)]
  | .processLoop i j => running c (.processLoop i j) = some q →
      Apart off 24 (written c.client.dev (c.q.ctxs q).desc (c.q.ctxs q).data)
  | _ => True

/-- The command spares all nodes, and `last_returned_node` stays an `int`. -/
structure Spares (c : Config AdminClient Unit) (cmd : Cmd Unit) : Prop where
  nodes : ∀ teid q off, c.client.dev.schedNodes teid = some (q, off) → SparesNode c q off cmd
  ids : ∀ p ∈ running c cmd, opcode (c.q.ctxs p).desc = opcodeAddSchedElems →
    c.client.dev.lastReturnedNode + numElems (c.q.ctxs p).data < 0x80000000

def history (base len : ℕ) : Machine History where
  start s := Enabled AdminQueue.subclass base len s.c ∧ s.added = [] ∧
    s.c.client.dev.lastReturnedNode = staticNodes + 1 ∧ ∀ teid, s.c.client.dev.schedNodes teid = none
  step := HistoryStep

def sparing (base len : ℕ) : Machine History :=
  (history base len).restrict fun s _ => ∀ cmd rest, s.c.stack = cmd :: rest → Spares s.c cmd

/-- A `get_sched_elems` for this node is answered with exactly this element. -/
def Returns (c : Config AdminClient Unit) (t : ℕ) (e : List UInt8) : Prop :=
  get32 e 4 = t ∧ ∀ env p, opcode (c.q.ctxs p).desc = opcodeGetSchedElems → get32 (c.q.ctxs p).data 4 = t →
    24 ≤ (c.q.ctxs p).data.length → ∃ h, handle env c.client.dev c.q.ctxs p = .ok h ∧ h.reply = .indirect 0 e

/-- The buffer of a `get_sched_elems` for one node. -/
def request (t : ℕ) : List UInt8 := leBytes 4 0 ++ leBytes 4 t ++ List.replicate 16 0

def parentTeid (c : Config AdminClient Unit) (t : ℕ) : Option ℕ :=
  (getSchedElem c.client.dev c.q.ctxs (request t)).toOption.map fun data => get32 data 0

/-- From this node the root is reached in finitely many steps. -/
inductive Rooted (c : Config AdminClient Unit) : ℕ → Prop
  | root : Rooted c 0
  | up {t u : ℕ} (h : parentTeid c t = some u) (hu : Rooted c u) : Rooted c t

/-- Every element names the root or a node returned before it as its parent. -/
def Hung (added : List (ℕ × List UInt8)) : Prop :=
  ∀ x ∈ added, get32 x.2 0 = 0 ∨ ∃ y ∈ added, y.1 < x.1 ∧ get32 x.2 0 = y.1

instance : DecidablePred Hung := fun _ => inferInstanceAs (Decidable (∀ _ ∈ _, _ ∨ _))

section

variable {s s' : History} {c c' : Config AdminClient Unit} {cmd : Cmd Unit} {rest : List (Cmd Unit)} {env : Env AdminEnv}
  {p q : Slot} {off t : ℕ} {e : List UInt8}

theorem slice_overwrite_apart {l bs : List UInt8} {o n : ℕ} (hlen : off + n ≤ l.length)
    (hd : o + bs.length ≤ off ∨ off + n ≤ o) : slice (overwrite l o bs) off n = slice l off n := by
  obtain hd | hd := hd
  · exact slice_overwrite_ne (by omega) (.inr hd)
  · have htake : off + n ≤ (l.take o).length := by
      rw [List.length_take]
      omega
    rw [overwrite, List.append_assoc, slice_append_left htake, slice_take hd]

theorem le_of_slice_length {l : List UInt8} {n : ℕ} (hn : n ≠ 0) (h : (slice l off n).length = n) : off + n ≤ l.length := by
  rw [slice, List.length_take, List.length_drop] at h
  omega

theorem complete_datas {client : AdminClient} {h : Handled} {e : Effect AdminClient Unit}
    (hc : complete client p h = .ok e) : e.client.dev = client.dev ∧ e.datas = [(p, h.data)] := by
  unfold complete at hc
  split at hc
  · cases hc
    exact ⟨rfl, rfl⟩
  · cases hc
    exact ⟨rfl, rfl⟩
  · split at hc
    · cases hc
    · cases hc
      exact ⟨rfl, rfl⟩

theorem resume_datas {client : AdminClient} {ctxs : Slot → DescCtx} {e : Effect AdminClient Unit}
    (hr : AdminQueue.resume client ctxs = .ok e) :
    ∃ p, e.client.dev = client.dev ∧ e.datas = [(p, (ctxs p).data)] := by
  unfold AdminQueue.resume at hr
  split at hr
  · cases hr
  · rename_i p pending hp
    obtain ⟨h, hreply, hc⟩ := bind_ok hr
    obtain ⟨hdev, hdatas⟩ := complete_datas hc
    rw [(replyData_eq hreply).2] at hdatas
    exact ⟨p, hdev, hdatas⟩

theorem applyEffect_data {e : Effect AdminClient Unit} (h : applyEffect env c e = .ok c') :
    c'.client.dev = e.client.dev ∧ dataOf c'.q.ctxs = assigned (dataOf c.q.ctxs) e.datas := by
  refine ⟨?_, (applyEffect_contents h).2⟩
  obtain ⟨q, -, rfl⟩ := applyEffect_ok h
  rfl

theorem exec_quiet (he : c.q.enabled = true) (h : exec AdminQueue.subclass env c cmd = .ok c') (hr : running c cmd = none) :
    c'.client.dev = c.client.dev ∧ ∀ q off, off + 24 ≤ (c.q.ctxs q).data.length → SparesNode c q off cmd →
      slice (c'.q.ctxs q).data off 24 = slice (c.q.ctxs q).data off 24 := by
  have hdata (q' : QueueBase) (hq : dataOf q'.ctxs = dataOf c.q.ctxs) (q : Slot) (off : ℕ) :
      slice (q'.ctxs q).data off 24 = slice (c.q.ctxs q).data off 24 := by
    exact congrArg (fun l => slice l off 24) (congrFun hq q)
  have hrange (q' : QueueBase) (first cnt : ℕ) (s : DescState) : dataOf (q'.markRange first cnt s).ctxs = dataOf q'.ctxs :=
    (contents_update q' first cnt (fun _ x => { x with state := s }) (fun _ _ => rfl) fun _ _ => rfl).2
  cases cmd with
  | triggerFetch =>
    obtain ⟨-, rfl⟩ | ⟨-, -, rfl⟩ := triggerFetch_ok he h
    · exact ⟨rfl, fun _ _ _ _ => rfl⟩
    · refine ⟨rfl, fun q off _ _ => hdata _ ?_ q off⟩
      exact (contents_update c.q c.q.fetchPos c.q.fetchCnt
        (fun i x => { x with state := .fetching, index := (c.q.nextIdx + i) % c.q.len }) (fun _ _ => rfl) fun _ _ => rfl).2
  | triggerProcess =>
    cases h
    rw [triggerProcess_eq he]
    exact ⟨rfl, fun _ _ _ _ => rfl⟩
  | triggerWriteback =>
    obtain ⟨-, rfl⟩ | ⟨-, rfl⟩ := triggerWriteback_ok (S := AdminQueue.subclass) he h
    · exact ⟨rfl, fun _ _ _ _ => rfl⟩
    · exact ⟨rfl, fun q off _ _ => hdata _ (hrange ..) q off⟩
  | processLoop i j =>
    obtain ⟨-, rfl⟩ | ⟨hlt, hp, -⟩ := processLoop_ok h
    · exact ⟨rfl, fun _ _ _ _ => rfl⟩
    · rw [running, if_pos ⟨hlt, hp⟩] at hr
      cases hr
  | fetchDone pos cnt i buf =>
    obtain ⟨-, rfl⟩ | ⟨hlt, r, d, q', rfl, rfl, rfl, ⟨-, rfl⟩ | ⟨addr, len, hprep, rfl⟩⟩ := fetchDone_ok h
    · exact ⟨rfl, fun _ _ _ _ => rfl⟩
    · refine ⟨rfl, fun q off _ _ => hdata _ ?_ q off⟩
      rw [dataOf_setState, dataOf_modify]
      exact Function.update_eq_self _ _
    · refine ⟨rfl, fun q off _ hspare => ?_⟩
      by_cases hq : q = slot maxActiveDescs (pos + i)
      · have hlen := hspare hlt hq.symm addr len hprep
        subst hq
        simp [QueueBase.modify, growData, Nat.not_lt.2 hlen]
      · simp [QueueBase.modify, hq]
  | dataFetch r addr o total =>
    obtain ⟨n, q', hn, rfl, hcase⟩ := dataFetch_ok h
    have hone (q : Slot) (off : ℕ) (hoff : off + 24 ≤ (c.q.ctxs q).data.length)
        (hspare : SparesNode c q off (.dataFetch r addr o total)) :
        slice ((c.q.modify r fun x => { x with data := overwrite x.data o (env.read (addr + o) n) }).ctxs q).data off 24 =
          slice (c.q.ctxs q).data off 24 := by
      by_cases hq : q = r
      · subst hq
        have hd := hspare rfl _ (List.mem_singleton_self _)
        simp only [QueueBase.modify, Function.update_self]
        refine slice_overwrite_apart hoff ?_
        rw [Env.read, readBytes_length, hn]
        exact hd
      · simp [QueueBase.modify, hq]
    obtain ⟨-, rfl⟩ | ⟨-, rfl⟩ := hcase
    · exact ⟨rfl, hone⟩
    · refine ⟨rfl, fun q off hoff hspare => ?_⟩
      rw [← hone q off hoff hspare]
      exact congrArg (fun l => slice l off 24) (congrFun (dataOf_setState _ r .prepared) q)
  | dataWritten r =>
    rw [dataWritten_ok h]
    exact ⟨rfl, fun q off _ _ => hdata _ (dataOf_setState c.q r .processed) q off⟩
  | writebackDone pos n =>
    rw [(writebackDone_ok he h).2]
    refine ⟨rfl, fun q off _ _ => hdata _ ?_ q off⟩
    exact (hrange ..).trans (hrange ..)
  | resume k =>
    obtain ⟨e, hres, hap⟩ := resume_ok h
    obtain ⟨r, hdev, hdatas⟩ := resume_datas hres
    obtain ⟨h1, h2⟩ := applyEffect_data hap
    refine ⟨h1.trans hdev, fun q off _ _ => hdata _ ?_ q off⟩
    rw [h2, hdatas]
    exact Function.update_eq_self _ _

theorem exec_running (h : exec AdminQueue.subclass env c cmd = .ok c') (hr : running c cmd = some p) :
    ∃ h, handle env.client c.client.dev (c.q.setState p .processing).ctxs p = .ok h ∧ c'.client.dev = h.dev ∧
      dataOf c'.q.ctxs = Function.update (dataOf c.q.ctxs) p h.data := by
  cases cmd with
  | processLoop i j =>
    obtain ⟨hn, rfl⟩ | ⟨hlt, hst, r, q, e, rfl, rfl, hproc, hap⟩ := processLoop_ok h
    · rw [running, if_neg hn] at hr
      cases hr
    · rw [running, if_pos ⟨hlt, hst⟩] at hr
      cases hr
      obtain ⟨h, hh, hc⟩ := bind_ok hproc
      obtain ⟨h1, h2⟩ := applyEffect_data hap
      obtain ⟨hdev, hdatas⟩ := complete_datas hc
      refine ⟨h, hh, h1.trans hdev, ?_⟩
      rw [h2, hdatas]
      change Function.update (dataOf (c.q.setState _ .processing).ctxs) _ _ = _
      rw [dataOf_setState]
  | _ => cases hr

theorem slice_overwrite_within {l bs : List UInt8} {o n : ℕ} (hlen : off + n ≤ l.length) (ho : o + bs.length ≤ n) :
    slice (overwrite l (off + o) bs) off n = overwrite (slice l off n) o bs := by
  have hsplit : n = o + (bs.length + (n - o - bs.length)) := by omega
  have hbefore : (slice l off n).take o = slice l off o := by
    rw [slice, List.take_take, Nat.min_eq_left (by omega)]
    rfl
  have hafter : (slice l off n).drop (o + bs.length) = slice l (off + o + bs.length) (n - o - bs.length) := by
    rw [slice, List.drop_take, List.drop_drop, slice, ← Nat.add_assoc, Nat.sub_sub]
  have hbound : off + o + bs.length ≤ l.length := by omega
  have hright : overwrite (slice l off n) o bs =
      slice l off o ++ (bs ++ slice l (off + o + bs.length) (n - o - bs.length)) := by
    rw [overwrite, hbefore, hafter, List.append_assoc]
  calc slice (overwrite l (off + o) bs) off n
      = slice (overwrite l (off + o) bs) off (o + (bs.length + (n - o - bs.length))) := by rw [← hsplit]
    _ = slice l off o ++ (bs ++ slice l (off + o + bs.length) (n - o - bs.length)) := by
        rw [slice_add, slice_add, slice_overwrite (by omega), slice_overwrite_ne hbound (.inl le_rfl),
          slice_overwrite_ne hbound (.inr le_rfl)]
    _ = overwrite (slice l off n) o bs := hright.symm

/-- Where the loop of `add_sched_elems` leaves the elements. -/
structure Added (p : Slot) (n i : ℕ) (data : List UInt8) (dev : AdminDev) (r : List UInt8 × AdminDev) : Prop where
  nodes : ∀ j < n, r.2.schedNodes (dev.lastReturnedNode + j) = some (p, 8 + 24 * (i + j))
  others : ∀ t, t < dev.lastReturnedNode ∨ dev.lastReturnedNode + n ≤ t → r.2.schedNodes t = dev.schedNodes t
  elems : ∀ j < n, slice r.1 (8 + 24 * (i + j)) 24 =
    put32 4 (dev.lastReturnedNode + j) (slice data (8 + 24 * (i + j)) 24)
  length : n ≠ 0 → 8 + 24 * (i + n) ≤ data.length

theorem addSchedElems_added {n i : ℕ} {data : List UInt8} {dev : AdminDev} {r : List UInt8 × AdminDev}
    (he : addSchedElems p n i data dev = .ok r) : Added p n i data dev r := by
  induction n generalizing i data dev with
  | zero =>
    cases he
    exact ⟨fun _ h => absurd h (Nat.not_lt_zero _), fun _ _ => rfl, fun _ h => absurd h (Nat.not_lt_zero _),
      fun h => absurd rfl h⟩
  | succ n ih =>
    obtain ⟨_, hneed, he⟩ := bind_ok he
    have hlen := need_length hneed
    have hput : (put32 (8 + 24 * i + 4) dev.lastReturnedNode data).length = data.length :=
      overwrite_length (by rw [leBytes_length]; omega)
    obtain ⟨hnodes, hothers, helems, hlength⟩ := ih he
    rw [hput] at hlength
    refine ⟨fun j hj => ?_, fun t ht => ?_, fun j hj => ?_, fun _ => ?_⟩
    · cases j with
      | zero =>
        rw [hothers _ (by dsimp only; omega)]
        exact Function.update_self ..
      | succ j =>
        have h := hnodes j (by omega)
        dsimp only at h
        rw [show dev.lastReturnedNode + (j + 1) = dev.lastReturnedNode + 1 + j by omega, h]
        congr 3
        omega
    · rw [hothers t (by dsimp only; omega)]
      exact Function.update_of_ne (by omega) ..
    · cases j with
      | zero =>
        have hsame := @addSchedElems_same _ _ _ _ (8 + 24 * i) 24 _ _ _ he (.refl _ _ _) fun j hj _ => .inr (by omega)
        rw [Nat.add_zero, Nat.add_zero, hsame.slice]
        exact slice_overwrite_within hlen (by rw [leBytes_length]; omega)
      | succ j =>
        have h := helems j (by omega)
        have hslice : slice (put32 (8 + 24 * i + 4) dev.lastReturnedNode data) (8 + 24 * (i + 1 + j)) 24 =
            slice data (8 + 24 * (i + 1 + j)) 24 :=
          slice_overwrite_ne (by rw [leBytes_length]; omega) (by rw [leBytes_length]; omega)
        dsimp only at h
        rw [hslice] at h
        rw [show i + (j + 1) = i + 1 + j by omega, show dev.lastReturnedNode + (j + 1) = dev.lastReturnedNode + 1 + j by omega,
          h]
    · cases n with
      | zero => omega
      | succ n =>
        have := hlength (by omega)
        omega

/-- All nodes that were returned are still where the table has them. -/
structure Remembers (s : History) : Prop where
  last : staticNodes < s.c.client.dev.lastReturnedNode
  few : s.c.client.dev.lastReturnedNode < 0x80000000
  static : ∀ t ≤ staticNodes, s.c.client.dev.schedNodes t = none
  nodes : ∀ x ∈ s.added, staticNodes < x.1 ∧ x.1 < s.c.client.dev.lastReturnedNode ∧ x.2.length = 24 ∧
    get32 x.2 4 = x.1 ∧ ∃ q off, s.c.client.dev.schedNodes x.1 = some (q, off) ∧ slice (s.c.q.ctxs q).data off 24 = x.2

theorem Remembers.length (h : Remembers s) {x : ℕ × List UInt8} (hx : x ∈ s.added)
    (hslice : slice (s.c.q.ctxs q).data off 24 = x.2) : off + 24 ≤ (s.c.q.ctxs q).data.length := by
  obtain ⟨-, -, hlen, -⟩ := h.nodes x hx
  exact le_of_slice_length (by omega) (hslice ▸ hlen)

/-- A step that changes neither the counter nor the table. -/
theorem Remembers.quiet (h : Remembers s) (hlast : c'.client.dev.lastReturnedNode = s.c.client.dev.lastReturnedNode)
    (hsched : c'.client.dev.schedNodes = s.c.client.dev.schedNodes)
    (hkeep : ∀ teid q off, s.c.client.dev.schedNodes teid = some (q, off) → off + 24 ≤ (s.c.q.ctxs q).data.length →
      slice (c'.q.ctxs q).data off 24 = slice (s.c.q.ctxs q).data off 24) : Remembers ⟨c', s.added⟩ := by
  refine ⟨?_, ?_, ?_, fun x hx => ?_⟩
  · rw [hlast]
    exact h.last
  · rw [hlast]
    exact h.few
  · rw [hsched]
    exact h.static
  · obtain ⟨h1, h2, h3, h4, q, off, hq, hslice⟩ := h.nodes x hx
    rw [hlast, hsched]
    exact ⟨h1, h2, h3, h4, q, off, hq, (hkeep _ q off hq (h.length hx hslice)).trans hslice⟩

theorem newElem_length {data : List UInt8} {dev : AdminDev} {j : ℕ} (hlen : 8 + 24 * j + 24 ≤ data.length) :
    (newElem dev data j).2.length = 24 := by
  have hs := slice_length hlen
  unfold newElem
  rw [put32, overwrite_length (by rw [leBytes_length]; omega), hs]

theorem newElem_teid {data : List UInt8} {dev : AdminDev} {j : ℕ} (hlen : 8 + 24 * j + 24 ≤ data.length)
    (hfew : dev.lastReturnedNode + j < 0x100000000) : get32 (newElem dev data j).2 4 = (newElem dev data j).1 := by
  have hs := slice_length hlen
  unfold newElem
  rw [get32_put32 (by omega)]
  exact Nat.mod_eq_of_lt hfew

theorem Remembers.run (h : Remembers s) (hsp : Spares s.c cmd) (hr : running s.c cmd = some p)
    (he : exec AdminQueue.subclass env { s.c with stack := rest } cmd = .ok c') :
    Remembers ⟨c', s.added ++ addedBy s.c p⟩ := by
  obtain ⟨hd, hh, hdev, hdatas⟩ := exec_running he hr
  change handle _ s.c.client.dev (s.c.q.setState p .processing).ctxs p = _ at hh
  change dataOf c'.q.ctxs = Function.update (dataOf s.c.q.ctxs) p hd.data at hdatas
  have hdesc : ((s.c.q.setState p .processing).ctxs p).desc = (s.c.q.ctxs p).desc :=
    congrFun (descOf_setState s.c.q p .processing) p
  have hdata : ((s.c.q.setState p .processing).ctxs p).data = (s.c.q.ctxs p).data :=
    congrFun (dataOf_setState s.c.q p .processing) p
  have hother (q : Slot) (hq : q ≠ p) : (c'.q.ctxs q).data = (s.c.q.ctxs q).data :=
    (congrFun hdatas q).trans (Function.update_of_ne hq ..)
  have hself : (c'.q.ctxs p).data = hd.data := (congrFun hdatas p).trans (Function.update_self ..)
  have hapart (teid : ℕ) (off : ℕ) (hn : s.c.client.dev.schedNodes teid = some (p, off)) :
      Apart off 24 (written s.c.client.dev (s.c.q.ctxs p).desc (s.c.q.ctxs p).data) := by
    cases cmd with
    | processLoop i j => exact hsp.nodes teid p off hn hr
    | _ => cases hr
  have hkeep (teid : ℕ) (q : Slot) (off : ℕ) (hn : s.c.client.dev.schedNodes teid = some (q, off)) :
      slice (c'.q.ctxs q).data off 24 = slice (s.c.q.ctxs q).data off 24 := by
    by_cases hq : q = p
    · subst hq
      have hsame := handle_same hh (by rw [hdesc, hdata]; exact hapart teid off hn)
      rw [hself, hsame.slice, hdata]
    · rw [hother q hq]
  by_cases hop : opcode (s.c.q.ctxs p).desc = opcodeAddSchedElems
  · have hfew := hsp.ids p hr hop
    have hadd := handle_addSchedElems hh (hdesc ▸ hop)
    rw [hdata] at hadd
    obtain ⟨hlast, -⟩ := addSchedElems_ids hadd (by omega)
    obtain ⟨hnodes, hothers, helems, hlength⟩ := addSchedElems_added hadd
    rw [← hdev] at hnodes hothers
    dsimp only at hlast hnodes hothers helems
    rw [← hdev] at hlast
    have hold := h.last
    refine ⟨?_, ?_, fun t ht => ?_, fun x hx => ?_⟩
    · dsimp only
      omega
    · dsimp only
      omega
    · exact (hothers t (.inl (by omega))).trans (h.static t ht)
    · dsimp only
      rw [hlast]
      obtain hx | hx := List.mem_append.1 hx
      · obtain ⟨h1, h2, h3, h4, q, off, hq, hslice⟩ := h.nodes x hx
        refine ⟨h1, by omega, h3, h4, q, off, ?_, (hkeep _ q off hq).trans hslice⟩
        rw [hothers x.1 (.inl h2)]
        exact hq
      · rw [addedBy, if_pos hop] at hx
        obtain ⟨j, hj, rfl⟩ := List.mem_map.1 hx
        rw [List.mem_range] at hj
        have hlen : 8 + 24 * j + 24 ≤ (s.c.q.ctxs p).data.length := by
          have := hlength (by omega)
          omega
        refine ⟨?_, ?_, newElem_length hlen, newElem_teid hlen (by omega), p, 8 + 24 * (0 + j), hnodes j hj, ?_⟩
        · unfold newElem
          dsimp only
          omega
        · unfold newElem
          dsimp only
          omega
        · rw [hself, helems j hj, Nat.zero_add]
          rfl
  · obtain ⟨hlast, hsched⟩ := handle_nodes hh (hdesc ▸ hop)
    rw [addedBy, if_neg hop, List.append_nil]
    rw [← hdev] at hlast hsched
    exact h.quiet hlast hsched fun teid q off hn _ => hkeep teid q off hn

theorem Remembers.step (h : Remembers s) (he : s.c.q.enabled = true)
    (hsp : ∀ cmd rest, s.c.stack = cmd :: rest → Spares s.c cmd) (hs : HistoryStep s s') : Remembers s' := by
  cases hs with
  | exec env cmd rest hstack hexec =>
    cases hr : running s.c cmd with
    | none =>
      obtain ⟨hdev, hkeep⟩ := exec_quiet (c := { s.c with stack := rest }) he hexec hr
      rw [Option.toList_none, List.flatMap_nil, List.append_nil]
      refine h.quiet (by rw [hdev]) (by rw [hdev]) fun teid q off hn hlen => hkeep q off hlen ?_
      exact (hsp cmd rest hstack).nodes teid q off hn
    | some p =>
      rw [Option.toList_some, List.flatMap_singleton]
      exact h.run (hsp cmd rest hstack) hr hexec
  | tail t ht hstack => exact h.quiet rfl rfl fun _ _ _ _ _ => rfl

theorem history_queue {base len : ℕ} (h : (history base len).Reachable s) :
    (machine AdminQueue.subclass base len).Reachable s.c := by
  induction h with
  | start hs => exact .start hs.1
  | step _ hs ih =>
    refine .step ih ?_
    cases hs with
    | exec env cmd rest hstack hexec => exact .exec env cmd rest hstack hexec
    | tail t ht hstack => exact .tail t ht hstack rfl

theorem Remembers.reachable {base len : ℕ} (h : (sparing base len).Reachable s) : Remembers s := by
  induction h with
  | start hs =>
    obtain ⟨-, hadded, hlast, hnone⟩ := hs
    refine ⟨?_, ?_, fun t _ => hnone t, fun x hx => ?_⟩
    · rw [hlast]
      decide
    · rw [hlast]
      decide
    · rw [hadded] at hx
      cases hx
  | step hr hs ih =>
    have hinv := DescriptorQueue.Inv.reachable (history_queue hr.of_restrict)
    exact ih.step hinv.enabled hs.2 hs.1

theorem staticElem_eq_none (ht : staticNodes < t) : staticElem t = none := by
  unfold staticNodes at ht
  unfold staticElem
  split <;> first | omega | rfl

theorem getSchedElem_node {dev : AdminDev} {ctxs : Slot → DescCtx} {data : List UInt8} (ht : get32 data 4 = t)
    (hstatic : staticElem t = none) (hn : dev.schedNodes t = some (q, off)) (hlen : off + 24 ≤ (ctxs q).data.length) :
    getSchedElem dev ctxs data = .ok (overwrite data 0 (slice (ctxs q).data off 24)) := by
  unfold getSchedElem
  simp only [ht, hstatic, hn, need, Nat.not_lt.2 hlen, if_false]
  rfl

theorem overwrite_front {l bs : List UInt8} : overwrite l 0 bs = bs ++ l.drop bs.length := by
  rw [overwrite, List.take_zero, List.nil_append, Nat.zero_add]

theorem takeD_overwrite {l bs : List UInt8} (h : bs.length = 24) : (overwrite l 0 bs).takeD 24 0 = bs := by
  rw [overwrite_front, List.takeD_eq_take _ (by rw [List.length_append]; omega), ← h, List.take_left]

theorem get32_request (ht : t < 0x100000000) : get32 (request t) 4 = t := by
  unfold request get32
  have hslice := slice_append_right (leBytes 4 0) (leBytes 4 t ++ List.replicate 16 0) 0 4
  rw [leBytes_length, Nat.add_zero] at hslice
  have hword : slice (leBytes 4 t ++ List.replicate 16 0) 0 4 = leBytes 4 t := by
    rw [slice, List.drop_zero, List.take_left' (leBytes_length 4 t)]
  rw [List.append_assoc, hslice, hword, leNat_leBytes]
  exact Nat.mod_eq_of_lt ht

theorem request_length (t : ℕ) : (request t).length = 24 := by
  simp [request, leBytes_length]

theorem Remembers.returns (h : Remembers s) {x : ℕ × List UInt8} (hx : x ∈ s.added) : Returns s.c x.1 x.2 := by
  obtain ⟨hstatic, -, hlen, hteid, q, off, hn, hslice⟩ := h.nodes x hx
  refine ⟨hteid, fun env p hop ht hdata => ?_⟩
  have hget := getSchedElem_node ht (staticElem_eq_none hstatic) hn (h.length hx hslice)
  have huse : schedUse s.c.client.dev x.1 ≤ (s.c.q.ctxs p).data.length := by
    unfold schedUse
    rw [staticElem_eq_none hstatic, hn]
    exact hdata
  rw [hslice] at hget
  have hsent : (if 24 ≤ datalen (s.c.q.ctxs p).desc then 24 else 0) ≤ (overwrite (s.c.q.ctxs p).data 0 x.2).length := by
    rw [overwrite_length (by omega)]
    split <;> omega
  unfold opcodeGetSchedElems at hop
  unfold handle
  simp only [hop, ht, need_ok huse, hget, bind, Except.bind, need_ok hsent, Except.ok.injEq, exists_eq_left']
  exact congrArg (Reply.indirect 0) (takeD_overwrite hlen)

theorem Remembers.parent (h : Remembers s) {x : ℕ × List UInt8} (hx : x ∈ s.added) :
    parentTeid s.c x.1 = some (get32 x.2 0) := by
  obtain ⟨hstatic, hlt, hlen, -, q, off, hn, hslice⟩ := h.nodes x hx
  have hfew := h.few
  have hget := getSchedElem_node (get32_request (show x.1 < 0x100000000 by omega)) (staticElem_eq_none hstatic) hn
    (h.length hx hslice)
  rw [hslice] at hget
  unfold parentTeid
  rw [hget, overwrite_front]
  exact congrArg (fun l => some (leNat l)) (slice_append_left (by omega))

/-- The parent of a static node, with or without a `break` behind its case. -/
theorem parentTeid_static {u type : ℕ} (hs : staticElem t = some (u, type)) (hn : c.client.dev.schedNodes t = none)
    (hu : u < 0x100000000) (ht : t < 0x100000000) : parentTeid c t = some u := by
  have hlen := request_length t
  have hparent : get32 (put8 8 type (put32 0 u (request t))) 0 = u := by
    have hput : (put32 0 u (request t)).length = 24 := by
      rw [put32, overwrite_length (by rw [leBytes_length]; omega), hlen]
    rw [get32, put8, slice_overwrite_ne (by rw [leBytes_length]; omega) (.inl (by omega)), ← get32,
      get32_put32 (by omega), Nat.mod_eq_of_lt hu]
  unfold parentTeid getSchedElem
  simp only [get32_request ht, hs, hn, ite_self]
  exact congrArg some hparent

theorem Rooted.static (hn : ∀ t ≤ staticNodes, c.client.dev.schedNodes t = none) (hs : (staticElem t).isSome)
    (ht : t < 55) : Rooted c t := by
  have hup {t u type : ℕ} (hs : staticElem t = some (u, type)) (ht : t < 55) (hu : Rooted c u) (hlt : u < 55) :
      Rooted c t := by
    have hnone := hn t (by unfold staticNodes; omega)
    exact .up (parentTeid_static hs hnone (by omega) (by omega)) hu
  have h1 : Rooted c 1 := hup (t := 1) rfl (by omega) .root (by omega)
  have h2 : Rooted c 2 := hup (t := 2) rfl (by omega) h1 (by omega)
  have h3 : Rooted c 3 := hup (t := 3) rfl (by omega) h2 (by omega)
  have h4 : Rooted c 4 := hup (t := 4) rfl (by omega) h3 (by omega)
  have h5 : Rooted c 5 := hup (t := 5) rfl (by omega) h4 (by omega)
  have hleaf (type : ℕ) (he : staticElem t = some (5, type)) : Rooted c t := hup he ht h5 (by omega)
  unfold staticElem at hs hleaf
  split at hs
  · exact .root
  · exact h1
  · exact h2
  · exact h3
  · exact h4
  · exact h5
  · exact hleaf 3 rfl
  · exact hleaf 3 rfl
  · exact hleaf 3 rfl
  · exact hleaf 3 rfl
  all_goals first | omega | cases hs

/-- From 55 one gets nowhere but to 55. -/
theorem not_rooted (hn : ∀ t ≤ staticNodes, c.client.dev.schedNodes t = none) (hr : Rooted c t) :
    ¬(55 ≤ t ∧ t ≤ staticNodes) := by
  induction hr with
  | root => omega
  | @up t u h _ ih =>
    rintro ⟨hlow, hhigh⟩
    have hs : staticElem t = some (55, 3) := by
      unfold staticNodes at hhigh
      interval_cases t <;> rfl
    have hnone := hn t hhigh
    unfold staticNodes at hhigh
    rw [parentTeid_static hs hnone (by omega) (by omega), Option.some.injEq] at h
    exact ih (by unfold staticNodes; omega)

theorem Remembers.rooted (h : Remembers s) (hung : Hung s.added) {x : ℕ × List UInt8} (hx : x ∈ s.added) :
    Rooted s.c x.1 := by
  generalize ht : x.1 = t
  induction t using Nat.strong_induction_on generalizing x with
  | h t ih =>
    subst ht
    refine .up (h.parent hx) ?_
    obtain hroot | ⟨y, hy, hlt, heq⟩ := hung x hx
    · rw [hroot]
      exact .root
    · rw [heq]
      exact ih y.1 hlt hy rfl

end

/-- As long as all commands spare the nodes, the elements are remembered, and the static nodes from 55
on are the only ones without a way to the root. -/
theorem sched_elems_remembered (base len : ℕ) (s : History) (h : (sparing base len).Reachable s) :
    (∀ x ∈ s.added, Returns s.c x.1 x.2) ∧
      (Hung s.added → ∀ t, (staticElem t).isSome ∨ t ∈ s.added.map Prod.fst →
        (Rooted s.c t ↔ ¬(55 ≤ t ∧ t ≤ staticNodes))) := by
  have hrem := Remembers.reachable h
  refine ⟨fun x hx => hrem.returns hx, fun hung t ht => ⟨not_rooted hrem.static, fun hnot => ?_⟩⟩
  obtain hs | ht := ht
  · by_cases hlt : t < 55
    · exact .static hrem.static hs hlt
    · have hnone := staticElem_eq_none (t := t) (by omega)
      rw [hnone] at hs
      cases hs
  · obtain ⟨x, hx, rfl⟩ := List.mem_map.1 ht
    exact hrem.rooted hung hx

/-- The commands up to the first that runs a context. -/
def quietly (env : Env AdminEnv) : ℕ → Config AdminClient Unit → Option (Config AdminClient Unit)
  | 0, c => some c
  | n + 1, c =>
    match c.stack with
    | [] => some c
    | cmd :: rest =>
      if running c cmd = none then (exec AdminQueue.subclass env { c with stack := rest } cmd).toOption.bind (quietly env n)
      else some c

theorem reachable_quietly {base len n : ℕ} {env : Env AdminEnv} {c c' : Config AdminClient Unit}
    {added : List (ℕ × List UInt8)} (hr : (sparing base len).Reachable ⟨c, added⟩)
    (hn : ∀ t, c.client.dev.schedNodes t = none) (h : quietly env n c = some c') :
    (sparing base len).Reachable ⟨c', added⟩ ∧ c'.client.dev = c.client.dev := by
  induction n generalizing c with
  | zero =>
    cases h
    exact ⟨hr, rfl⟩
  | succ n ih =>
    unfold quietly at h
    split at h
    · cases h
      exact ⟨hr, rfl⟩
    · rename_i cmd rest hs
      split at h
      · rename_i hrun
        obtain ⟨d, hd, h⟩ := Option.bind_eq_some_iff.1 h
        obtain ⟨d, hd', rfl⟩ := ok_of_map (f := id) (by rw [Option.map_id, id, hd])
        have hinv := DescriptorQueue.Inv.reachable (history_queue hr.of_restrict)
        obtain ⟨hdev, -⟩ := exec_quiet (c := { c with stack := rest }) hinv.enabled hd' hrun
        have hstep : HistoryStep ⟨c, added⟩ ⟨id d, added ++ (running c cmd).toList.flatMap (addedBy c)⟩ :=
          .exec env cmd rest hs hd'
        rw [hrun, Option.toList_none, List.flatMap_nil, List.append_nil] at hstep
        have hspare : ∀ cmd rest, c.stack = cmd :: rest → Spares c cmd := by
          intro cmd' rest' hs'
          rw [hs] at hs'
          cases hs'
          refine ⟨fun teid q off hq => ?_, fun p hp => ?_⟩
          · rw [hn] at hq
            cases hq
          · rw [hrun] at hp
            cases hp
        obtain ⟨hreach, hsame⟩ := ih (hr.step ⟨hstep, hspare⟩) (fun t => by rw [id, hdev]; exact hn t) h
        exact ⟨hreach, hsame.trans hdev⟩
      · cases h
        exact ⟨hr, rfl⟩

/-- Ring slot 0 adds a node below the root, ring slot 128 asks for it, and what lies between does nothing. -/
def nodeMem : ℕ → UInt8
  | 0x1001 => 0x14 | 0x1002 => 0x01 | 0x1003 => 0x04 | 0x1004 => 32 | 0x101D => 0x80
  | 0x2001 => 0x14 | 0x2002 => 0x04 | 0x2003 => 0x04 | 0x2004 => 24 | 0x201D => 0x90
  | 0x8004 => 1 | 0x8010 => 7 | 0x9004 => 60
  | _ => 0

def nodeEnv : Env AdminEnv := ⟨nodeMem, fun _ _ => true, ⟨0, fun _ => 0⟩⟩

def nodeRing : Config AdminClient Unit := Config.enabled 0x1000 130 32 ⟨freshDev, []⟩

theorem nodeRing_enabled : Enabled AdminQueue.subclass 0x1000 130 nodeRing :=
  ⟨rfl, rfl, rfl, by norm_num, by norm_num, rfl, rfl, rfl, fun _ => rfl, rfl, rfl, rfl⟩

def node : List UInt8 := [0, 0, 0, 0, 60, 0, 0, 0, 7] ++ List.replicate 15 0

/-- The context that the next command runs, the nodes it adds and how many it says to have. -/
def firstRun (c : Config AdminClient Unit) : Option (Slot × List (ℕ × List UInt8) × ℕ) :=
  match c.stack with
  | [] => none
  | cmd :: rest =>
    match running c cmd, exec AdminQueue.subclass nodeEnv { c with stack := rest } cmd with
    | some p, .ok _ => some (p, addedBy c p, numElems (c.q.ctxs p).data)
    | _, _ => none

theorem firstRun_some {c : Config AdminClient Unit} {p : Slot} {added : List (ℕ × List UInt8)} {n : ℕ}
    (h : firstRun c = some (p, added, n)) :
    ∃ cmd rest c', c.stack = cmd :: rest ∧ exec AdminQueue.subclass nodeEnv { c with stack := rest } cmd = .ok c' ∧
      running c cmd = some p ∧ addedBy c p = added ∧ numElems (c.q.ctxs p).data = n := by
  unfold firstRun at h
  split at h
  · cases h
  · rename_i cmd rest hs
    split at h
    · rename_i r c' hr he
      cases h
      exact ⟨cmd, rest, c', hs, he, hr, rfl, rfl⟩
    · cases h

/-- The node 60 is remembered when it has just been added. -/
theorem sched_elems_remembered_node :
    ∃ s, (sparing 0x1000 130).Reachable s ∧ s.added = [(60, node)] ∧ Returns s.c 60 node ∧ Rooted s.c 60 := by
  have hrun : (quietly nodeEnv 50 (tailWrite { nodeRing with stack := [] } 1)).bind firstRun =
      some (0, [(60, node)], 1) := by decide +kernel
  obtain ⟨c, hc, hfirst⟩ := Option.bind_eq_some_iff.1 hrun
  have hstart : (sparing 0x1000 130).Reachable ⟨tailWrite { nodeRing with stack := [] } 1, []⟩ :=
    .start ⟨⟨rfl, rfl, rfl, by norm_num, by norm_num, rfl, rfl, rfl, fun _ => rfl, rfl, rfl, rfl⟩, rfl, rfl, fun _ => rfl⟩
  obtain ⟨hreach, hdev⟩ := reachable_quietly hstart (fun _ => rfl) hc
  obtain ⟨cmd, rest, c', hs, hexec, hr, hadded, hnum⟩ := firstRun_some hfirst
  have hstep : HistoryStep ⟨c, []⟩ ⟨c', [] ++ (running c cmd).toList.flatMap (addedBy c)⟩ := .exec nodeEnv cmd rest hs hexec
  rw [hr, Option.toList_some, List.flatMap_singleton, hadded, List.nil_append] at hstep
  have hreach' := hreach.step ⟨hstep, fun cmd' rest' hs' => ?_⟩
  · obtain ⟨hreturns, hrooted⟩ := sched_elems_remembered 0x1000 130 _ hreach'
    refine ⟨_, hreach', rfl, hreturns (60, node) (List.mem_singleton_self _), ?_⟩
    have hung : Hung [(60, node)] := by decide
    exact (hrooted hung 60 (.inr (List.mem_singleton_self 60))).2 (by decide)
  · rw [hs] at hs'
    cases hs'
    refine ⟨fun teid q off hq => ?_, fun p hp _ => ?_⟩
    · rw [hdev] at hq
      cases hq
    · rw [hr] at hp
      cases hp
      rw [hdev, hnum]
      decide

def answers (log : List Event) : List (List UInt8) :=
  log.filterMap fun
    | .dataWrite _ _ bytes => some bytes
    | _ => none

/-- With 127 other commands in between, the answer about the node 60 is a buffer of zeros. And the node
55 never has a way to the root. -/
theorem sched_elems_forgotten :
    (∃ c, (machine AdminQueue.subclass 0x1000 130).Reachable c ∧
      answers c.log = [[0, 0, 0, 0, 1, 0, 0, 0] ++ node, List.replicate 24 0]) ∧ ¬Rooted nodeRing 55 := by
  have hrun : (tailWrites AdminQueue.subclass nodeEnv 1000 [1, 17, 33, 49, 65, 81, 97, 113, 129] nodeRing).toOption.map (fun c => answers c.log) =
      some [[0, 0, 0, 0, 1, 0, 0, 0] ++ node, List.replicate 24 0] := by decide +kernel
  have hstart : (machine AdminQueue.subclass 0x1000 130).Reachable nodeRing := .start nodeRing_enabled
  refine ⟨Reachable.observe (fun _ _ h => h) hstart (by simp) hrun, fun hr => ?_⟩
  exact not_rooted (fun _ _ => rfl) hr ⟨le_rfl, by decide⟩

end Vmux.SchedElems
