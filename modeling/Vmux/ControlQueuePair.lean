import Vmux.Bytes

namespace Vmux.ControlQueuePair

open Bytes

inductive Event
  | fetch (addr : ℕ) (wqe : List UInt8)
  | process (wqe : List UInt8)
  | dataWrite (addr : ℕ) (bytes : List UInt8)
  | qenaUpdated (ceqId : ℕ)
deriving DecidableEq, Repr

/-- `control_queue_pair` with its first context, which is the only one it uses, and its registers. -/
structure Cqp where
  enabled : Bool
  cqeBase : ℕ
  hostCqPa : ℕ
  cqpBase : ℕ
  cnt : ℕ
  ccqpHigh : ℕ
  ccqpLow : ℕ
  ccqpStatus : ℕ
  cqpDb : ℕ
  cqpTail : ℕ
  log : List Event

/-- Guest memory, and what the words of a local buffer hold that are never assigned. -/
structure Env where
  mem : ℕ → UInt8
  uninit : ℕ → UInt8

def word (d : List UInt8) (byteIndex : ℕ) : ℕ := get64 d byteIndex

def opcode (desc : List UInt8) : ℕ := word desc 24 / 2 ^ 32 % 64
def ceqId (desc : List UInt8) : ℕ := word desc 24 % 1024
def cqId (desc : List UInt8) : ℕ := word desc 24 % 2 ^ 18

/-- `IRDMA_CQPSQ_WQEVALID` -/
def wqeValid (desc : List UInt8) : ℕ := word desc 24 / 2 ^ 63 % 2

/-- The words 16 to 23 and 0 to 7 of the local buffer stay as they are, unless it was cleared. -/
def completion (s : Cqp) (rest : List UInt8) (polarity : ℕ) : List UInt8 :=
  rest.take 8 ++ leBytes 8 s.hostCqPa ++ (rest.drop 8).take 8 ++
    leBytes 8 (s.cqpTail % 2 ^ 15 * 2 ^ 32 + polarity * 2 ^ 63)

def unassigned (env : Env) : List UInt8 := (List.range 16).map env.uninit

def zeros (n : ℕ) : List UInt8 := List.replicate n 0

def fpmVal : List UInt8 :=
  let set (byteIndex val : ℕ) (l : List UInt8) := put64 byteIndex val l
  set 168 (64 * 2 ^ 32 + 1) (set 136 (64 * 2 ^ 32) (set 120 768 (set 112 0x10000000 (set 80 (64 * 2 ^ 32)
    (set 72 0x40000 (set 64 (64 * 2 ^ 32) (set 16 (2 ^ 32 + 0x80000) (set 8 (2 ^ 32 + 0x40000)
      (set 0 (4096 * 2 ^ 32) (zeros 176))))))))))

/-- A completion in the next place of the completion queue. -/
def respond (s : Cqp) (before : List Event) (cqe : List UInt8) (after : List Event) : Cqp :=
  { s with
    log := s.log ++ before ++ [.dataWrite ((s.cqpBase + s.cnt * 32 % 2 ^ 32) % 2 ^ 64) cqe] ++ after
    cnt := (s.cnt + 1) % 2 ^ 32 }

/-- `admin_desc_ctx::process` up to the tail, by opcode. -/
def execute (env : Env) (desc : List UInt8) (s : Cqp) : Cqp :=
  let cqe := completion s (unassigned env) 1
  match opcode desc with
  | 0x20 => { s with log := s.log ++ [.dataWrite (word desc 32) fpmVal] }
  | 0x2b => s
  | 0x03 =>
    let s := if 0 < cqId desc then s else { s with cqpBase := word desc 32, cnt := 0 }
    respond s [] (completion s (zeros 16) (wqeValid desc)) (if 1 < cqId desc then [.qenaUpdated (ceqId desc)] else [])
  | 0x12 => respond s [.dataWrite (word desc 32) (leBytes 8 (26 * 2 ^ 32) ++ zeros 24)] cqe []
  | 0x16 => respond s [.dataWrite (word desc 32) (zeros 32)] cqe [.qenaUpdated (ceqId desc)]
  | 0x19 => respond s [.dataWrite (word desc 32) (zeros 32)] cqe []
  | 0x2e => respond s [] cqe []
  | 0x00 | 0x2c | 0x01 => respond s [] cqe [.qenaUpdated (ceqId desc)]
  | _ => s

/-- `admin_desc_ctx::process` -/
def process (env : Env) (desc : List UInt8) (s : Cqp) : Cqp :=
  let s := execute env desc { s with log := s.log ++ [.process desc] }
  { s with cqpTail := (s.cqpTail + 1) % 2 ^ 32 }

/-- `trigger_fetch` with the `done` of its DMA. The product is one of `uint32_t`. -/
def triggerFetch (env : Env) (s : Cqp) : Cqp :=
  if !s.enabled then s
  else
    let addr := (s.cqeBase + s.cqpTail * 64 % 2 ^ 32) % 2 ^ 64
    let wqe := readBytes env.mem addr 64
    process env wqe { s with log := s.log ++ [.fetch addr wqe] }

def regUpdated (env : Env) (s : Cqp) : Cqp := if s.enabled then triggerFetch env s else s

def createCqp (env : Env) (s : Cqp) : Cqp :=
  if s.ccqpHigh = 0 ∧ s.ccqpLow = 0 then s
  else if s.enabled then s
  else
    let cqpCtx := readBytes env.mem (s.ccqpHigh * 2 ^ 32 + s.ccqpLow) 64
    { s with
      cqeBase := word cqpCtx 8
      hostCqPa := word cqpCtx 24
      enabled := true
      cqpTail := 0
      ccqpStatus := if s.ccqpLow = 0 then 2 ^ 31 else 1 }

inductive Register
  | ccqpStatus | cqpDb | ccqpHigh | ccqpLow | cqpTail
deriving DecidableEq, Repr

/-- The cases of `reg_mem_write32`. -/
def regMemWrite32 (env : Env) (s : Cqp) (reg : Register) (val : ℕ) : Cqp :=
  match reg with
  | .ccqpStatus => { s with ccqpStatus := val }
  | .cqpDb =>
    let s := { s with cqpDb := val }
    if val = 0 then s
    else if s.cqpTail < val % 0x400 then regUpdated env s
    else s
  | .ccqpHigh => { s with ccqpHigh := val }
  | .ccqpLow => createCqp env { s with ccqpLow := val }
  | .cqpTail => { s with cqpTail := val }

def create (env : Env) (high low : ℕ) (s : Cqp) : Cqp :=
  regMemWrite32 env (regMemWrite32 env s .ccqpHigh high) .ccqpLow low

structure Doorbell where
  published : ℕ
  env : Env

/-- The guest counts on from its head and writes the remainder. -/
def ring (S : ℕ) (x : Cqp × ℕ) (d : Doorbell) : Cqp × ℕ :=
  (regMemWrite32 d.env x.1 .cqpDb ((x.2 + d.published) % S % 2 ^ 32), x.2 + d.published)

def rings (S : ℕ) (s : Cqp) (ds : List Doorbell) : Cqp × ℕ := ds.foldl (ring S) (s, 0)

def fetched (log : List Event) : List (ℕ × List UInt8) :=
  log.filterMap fun
    | .fetch addr wqe => some (addr, wqe)
    | _ => none

def processed (log : List Event) : List (List UInt8) :=
  log.filterMap fun
    | .process wqe => some wqe
    | _ => none

/-- The addresses of the first `head` WQEs that were posted. -/
def posted (B S head : ℕ) : List ℕ := (List.range head).map fun i => (B + 64 * (i % S)) % 2 ^ 64

/-- The WQEs up to the head were fetched and processed in order, and the tail says so. -/
structure InOrder (B S head : ℕ) (s : Cqp) : Prop where
  addrs : (fetched s.log).map Prod.fst = posted B S head
  wqes : processed s.log = (fetched s.log).map Prod.snd
  tail : s.cqpTail % S = head % S

section

variable {B S head : ℕ} {s : Cqp} {env : Env} {a b : List Event} {desc : List UInt8}

theorem fetched_append (a b : List Event) : fetched (a ++ b) = fetched a ++ fetched b := List.filterMap_append

theorem processed_append (a b : List Event) : processed (a ++ b) = processed a ++ processed b := List.filterMap_append

/-- Writes to guest memory and event queues. -/
def Event.Answer : Event → Prop
  | dataWrite _ _ | qenaUpdated _ => True
  | _ => False

theorem answers_silent (h : ∀ e ∈ a, e.Answer) : fetched a = [] ∧ processed a = [] := by
  constructor
  · refine List.filterMap_eq_nil_iff.2 fun e he => ?_
    have := h e he
    cases e <;> first | rfl | cases this
  · refine List.filterMap_eq_nil_iff.2 fun e he => ?_
    have := h e he
    cases e <;> first | rfl | cases this

/-- What `process` leaves alone, and what it says to the outside. -/
structure Executed (s t : Cqp) : Prop where
  enabled : t.enabled = s.enabled
  cqeBase : t.cqeBase = s.cqeBase
  cqpTail : t.cqpTail = s.cqpTail
  log : ∃ answers : List Event, (∀ e ∈ answers, e.Answer) ∧ t.log = s.log ++ answers

theorem Executed.refl (s : Cqp) : Executed s s := ⟨rfl, rfl, rfl, [], by simp⟩

theorem respond_executed {before after : List Event} {cqe : List UInt8} (hb : ∀ e ∈ before, e.Answer)
    (ha : ∀ e ∈ after, e.Answer) : Executed s (respond s before cqe after) := by
  refine ⟨rfl, rfl, rfl, before ++ [_] ++ after, ?_, by simp only [respond, List.append_assoc]; rfl⟩
  intro e he
  simp only [List.mem_append, List.mem_singleton] at he
  obtain (he | rfl) | he := he
  · exact hb e he
  · trivial
  · exact ha e he

theorem execute_executed (env : Env) (desc : List UInt8) (s : Cqp) : Executed s (execute env desc s) := by
  unfold execute
  dsimp only
  split
  · exact ⟨rfl, rfl, rfl, [_], by simp [Event.Answer], rfl⟩
  · exact .refl s
  · have hafter : ∀ e ∈ (if 1 < cqId desc then [Event.qenaUpdated (ceqId desc)] else []), e.Answer := by
      split <;> simp [Event.Answer]
    obtain ⟨h1, h2, h3, h4⟩ := @respond_executed (if 0 < cqId desc then s else { s with cqpBase := word desc 32, cnt := 0 }) [] _
      (completion (if 0 < cqId desc then s else { s with cqpBase := word desc 32, cnt := 0 }) (zeros 16) (wqeValid desc))
      (by simp) hafter
    by_cases hid : 0 < cqId desc
    · simp only [hid, if_true] at h1 h2 h3 h4 ⊢
      exact ⟨h1, h2, h3, h4⟩
    · simp only [hid, if_false] at h1 h2 h3 h4 ⊢
      exact ⟨h1, h2, h3, h4⟩
  all_goals first
    | exact .refl s
    | exact respond_executed (by simp [Event.Answer]) (by simp [Event.Answer])

structure Advanced (env : Env) (addr : ℕ) (s t : Cqp) : Prop where
  enabled : t.enabled = s.enabled
  cqeBase : t.cqeBase = s.cqeBase
  cqpTail : t.cqpTail = (s.cqpTail + 1) % 2 ^ 32
  fetched : fetched t.log = fetched s.log ++ [(addr, readBytes env.mem addr 64)]
  processed : processed t.log = processed s.log ++ [readBytes env.mem addr 64]

theorem triggerFetch_advanced (he : s.enabled = true) :
    Advanced env ((s.cqeBase + s.cqpTail * 64 % 2 ^ 32) % 2 ^ 64) s (triggerFetch env s) := by
  have heq : triggerFetch env s = process env (readBytes env.mem ((s.cqeBase + s.cqpTail * 64 % 2 ^ 32) % 2 ^ 64) 64)
      { s with log := s.log ++ [.fetch ((s.cqeBase + s.cqpTail * 64 % 2 ^ 32) % 2 ^ 64)
        (readBytes env.mem ((s.cqeBase + s.cqpTail * 64 % 2 ^ 32) % 2 ^ 64) 64)] } := by
    unfold triggerFetch
    exact if_neg (by rw [he]; decide)
  rw [heq]
  generalize (s.cqeBase + s.cqpTail * 64 % 2 ^ 32) % 2 ^ 64 = addr
  obtain ⟨h1, h2, h3, answers, hanswers, hlog⟩ := execute_executed env (readBytes env.mem addr 64)
    { s with log := s.log ++ [.fetch addr (readBytes env.mem addr 64)] ++ [.process (readBytes env.mem addr 64)] }
  obtain ⟨hf, hp⟩ := answers_silent hanswers
  refine ⟨h1, h2, ?_, ?_, ?_⟩
  · exact congrArg (fun n => (n + 1) % 2 ^ 32) h3
  · refine (congrArg ControlQueuePair.fetched hlog).trans ?_
    simp only [fetched_append, hf]
    simp [ControlQueuePair.fetched]
  · refine (congrArg ControlQueuePair.processed hlog).trans ?_
    simp only [processed_append, hp]
    simp [ControlQueuePair.processed]

theorem doorbell_cases (he : s.enabled = true) (val : ℕ) :
    (¬s.cqpTail < val % 0x400 ∧ regMemWrite32 env s .cqpDb val = { s with cqpDb := val }) ∨
      s.cqpTail < val % 0x400 ∧
        Advanced env ((s.cqeBase + s.cqpTail * 64 % 2 ^ 32) % 2 ^ 64) s (regMemWrite32 env s .cqpDb val) := by
  unfold regMemWrite32
  dsimp only
  by_cases hzero : val = 0
  · subst hzero
    exact .inl ⟨by omega, rfl⟩
  · rw [if_neg hzero]
    by_cases hlt : s.cqpTail < val % 0x400
    · rw [if_pos hlt, regUpdated, if_pos he]
      obtain ⟨h1, h2, h3, h4, h5⟩ := @triggerFetch_advanced { s with cqpDb := val } env he
      exact .inr ⟨hlt, h1, h2, h3, h4, h5⟩
    · rw [if_neg hlt]
      exact .inl ⟨hlt, rfl⟩

/-- The queue after `head` WQEs, within the first round. -/
structure Exact (B S head : ℕ) (s : Cqp) : Prop extends InOrder B S head s where
  enabled : s.enabled = true
  cqeBase : s.cqeBase = B
  cqpTail : s.cqpTail = head
  bound : head < min S 1024

theorem posted_length (B S head : ℕ) : (posted B S head).length = head := by
  rw [posted, List.length_map, List.length_range]

theorem posted_succ (B : ℕ) (h : head < min S 1024) :
    posted B S (head + 1) = posted B S head ++ [(B + head * 64 % 2 ^ 32) % 2 ^ 64] := by
  have hmod : head % S = head := Nat.mod_eq_of_lt (by omega)
  have hmul : head * 64 % 2 ^ 32 = 64 * (head % S) := by
    rw [hmod]
    omega
  rw [posted, List.range_succ, List.map_append, hmul]
  rfl

theorem InOrder.count (h : InOrder B S head s) : (fetched s.log).length = head := by
  rw [← posted_length B S head, ← h.addrs, List.length_map]

theorem Exact.ring_iff (h : Exact B S head s) (d : Doorbell) :
    (InOrder B S (head + d.published) (ring S (s, head) d).1 ↔
      d.published = 0 ∨ d.published = 1 ∧ head + 1 < min S 1024) ∧
    (InOrder B S (head + d.published) (ring S (s, head) d).1 →
      Exact B S (head + d.published) (ring S (s, head) d).1) := by
  have hbound := h.bound
  have hpos : 0 < S := by omega
  obtain ⟨hnot, heq⟩ | ⟨hlt, h1, h2, h3, h4, h5⟩ :=
    @doorbell_cases s d.env h.enabled ((head + d.published) % S % 2 ^ 32)
  · have hring : (ring S (s, head) d).1 = { s with cqpDb := (head + d.published) % S % 2 ^ 32 } := heq
    have hcount (hin : InOrder B S (head + d.published) (ring S (s, head) d).1) : d.published = 0 := by
      have hlog := hin.count
      rw [hring] at hlog
      dsimp only at hlog
      rw [h.count] at hlog
      omega
    rw [h.cqpTail] at hnot
    have hzero (hz : d.published = 0) : Exact B S (head + d.published) (ring S (s, head) d).1 := by
      rw [hring, hz]
      exact ⟨⟨h.addrs, h.wqes, h.tail⟩, h.enabled, h.cqeBase, h.cqpTail, hbound⟩
    refine ⟨⟨fun hin => .inl (hcount hin), ?_⟩, fun hin => hzero (hcount hin)⟩
    rintro (hz | ⟨hone, hnext⟩)
    · exact (hzero hz).toInOrder
    · -- the head is still below the mask and the size, so there would be a fetch
      exfalso
      apply hnot
      rw [hone, Nat.mod_eq_of_lt (show head + 1 < S by omega)]
      omega
  · have hring : (ring S (s, head) d).1 = regMemWrite32 d.env s .cqpDb ((head + d.published) % S % 2 ^ 32) := rfl
    generalize regMemWrite32 d.env s .cqpDb ((head + d.published) % S % 2 ^ 32) = t at hring h1 h2 h3 h4 h5
    rw [h.cqpTail, h.cqeBase] at h4
    rw [h.cqpTail] at hlt h3
    have hlog := h.count
    have hsucc := posted_succ B hbound
    have hcount (hin : InOrder B S (head + d.published) (ring S (s, head) d).1) : d.published = 1 := by
      have hlen := hin.count
      rw [hring, h4, List.length_append, hlog, List.length_singleton] at hlen
      omega
    have hnext (hone : d.published = 1) : head + 1 < min S 1024 := by
      rw [hone] at hlt
      have hsize : (head + 1) % S % 2 ^ 32 % 0x400 ≤ (head + 1) % S := by
        exact (Nat.mod_le _ _).trans (Nat.mod_le _ _)
      have hmod := Nat.mod_lt (head + 1) hpos
      omega
    have hexact (hone : d.published = 1) : Exact B S (head + d.published) (ring S (s, head) d).1 := by
      have hsmall := hnext hone
      rw [hring, hone]
      refine ⟨⟨?_, ?_, ?_⟩, h1.trans h.enabled, h2.trans h.cqeBase, ?_, hsmall⟩
      · rw [h4, List.map_append, h.addrs, hsucc]
        rfl
      · rw [h5, h4, List.map_append, h.wqes, h.cqeBase, h.cqpTail]
        rfl
      · rw [h3, Nat.mod_eq_of_lt (show head + 1 < 2 ^ 32 by omega)]
      · rw [h3]
        omega
    refine ⟨⟨fun hin => .inr ⟨hcount hin, hnext (hcount hin)⟩, ?_⟩, fun hin => hexact (hcount hin)⟩
    rintro (hz | ⟨hone, -⟩)
    · rw [hz, Nat.add_zero] at hlt
      have hsize : head % S % 2 ^ 32 % 0x400 ≤ head :=
        (Nat.mod_le _ _).trans ((Nat.mod_le _ _).trans (Nat.mod_le _ _))
      omega
    · exact (hexact hone).toInOrder

theorem exact_create {high low : ℕ} (hs : s.enabled = false) (hlog : s.log = []) (haddr : ¬(high = 0 ∧ low = 0))
    (hS : 0 < S) : Exact (word (readBytes env.mem (high * 2 ^ 32 + low) 64) 8) S 0 (create env high low s) := by
  unfold create regMemWrite32 createCqp
  simp only [haddr, if_false, hs, Bool.false_eq_true]
  refine ⟨⟨?_, ?_, rfl⟩, rfl, rfl, rfl, by omega⟩
  · simp only [hlog]
    rfl
  · simp only [hlog]
    rfl

/-- Each doorbell publishes one WQE at most, and they stay within the ring and the mask. -/
def OneByOne (S : ℕ) (ds : List Doorbell) : Prop :=
  (∀ d ∈ ds, d.published ≤ 1) ∧ (ds.map Doorbell.published).sum < min S 1024

theorem oneByOne_append {ds : List Doorbell} {d : Doorbell} : OneByOne S (ds ++ [d]) ↔
    OneByOne S ds ∧ (d.published = 0 ∨ d.published = 1 ∧ (ds.map Doorbell.published).sum + 1 < min S 1024) := by
  unfold OneByOne
  rw [List.forall_mem_append, List.forall_mem_singleton, List.map_append, List.sum_append, List.map_singleton,
    List.sum_singleton]
  constructor
  · rintro ⟨⟨hall, hone⟩, hsum⟩
    exact ⟨⟨hall, by omega⟩, by omega⟩
  · rintro ⟨⟨hall, hsum⟩, hcase⟩
    exact ⟨⟨hall, by omega⟩, by omega⟩

theorem rings_append (s : Cqp) (ds : List Doorbell) (d : Doorbell) : rings S s (ds ++ [d]) = ring S (rings S s ds) d := by
  rw [rings, List.foldl_append]
  rfl

theorem rings_head (s : Cqp) (ds : List Doorbell) : (rings S s ds).2 = (ds.map Doorbell.published).sum := by
  induction ds using List.reverseRecOn with
  | nil => rfl
  | append_singleton ds d ih =>
    rw [rings_append, List.map_append, List.sum_append, List.map_singleton, List.sum_singleton, ← ih]
    rfl

theorem Exact.rings_iff (h : Exact B S 0 s) (ds : List Doorbell) :
    ((∀ pre, pre <+: ds → InOrder B S (rings S s pre).2 (rings S s pre).1) ↔ OneByOne S ds) ∧
      (OneByOne S ds → Exact B S (rings S s ds).2 (rings S s ds).1) := by
  induction ds using List.reverseRecOn with
  | nil =>
    have hbound := h.bound
    refine ⟨⟨fun _ => ⟨by simp, by simpa using hbound⟩, fun _ pre hpre => ?_⟩, fun _ => h⟩
    rw [List.prefix_nil.1 hpre]
    exact h.toInOrder
  | append_singleton ds d ih =>
    obtain ⟨hiff, hexact⟩ := ih
    have hlast (hone : OneByOne S ds) := (hexact hone).ring_iff d
    rw [oneByOne_append, rings_append, ← rings_head (S := S) s ds]
    refine ⟨⟨fun hall => ?_, fun hcond pre hpre => ?_⟩, fun hcond => ?_⟩
    · have hone := hiff.1 fun pre hpre => hall pre (hpre.trans (List.prefix_append ds [d]))
      have hin := hall (ds ++ [d]) (List.prefix_refl _)
      rw [rings_append] at hin
      exact ⟨hone, (hlast hone).1.1 hin⟩
    · obtain rfl | hpre := List.prefix_concat_iff.1 hpre
      · rw [rings_append]
        exact (hlast hcond.1).1.2 hcond.2
      · exact hiff.2 hcond.1 pre hpre
    · have hin := (hlast hcond.1).1.2 hcond.2
      exact (hlast hcond.1).2 hin

end

/-- The WQEs are fetched and processed in order by every doorbell exactly if they are published one by one,
within the first round of the ring and below the mask of the doorbell. -/
theorem cqp_in_order_iff (env : Env) (s : Cqp) (high low k : ℕ) (ds : List Doorbell) (hs : s.enabled = false)
    (hlog : s.log = []) (haddr : ¬(high = 0 ∧ low = 0)) :
    (∀ pre, pre <+: ds → InOrder (word (readBytes env.mem (high * 2 ^ 32 + low) 64) 8) (2 ^ k)
        (rings (2 ^ k) (create env high low s) pre).2 (rings (2 ^ k) (create env high low s) pre).1) ↔
      (∀ d ∈ ds, d.published ≤ 1) ∧ (ds.map Doorbell.published).sum < min (2 ^ k) 1024 :=
  ((exact_create hs hlog haddr (Nat.two_pow_pos k)).rings_iff ds).1

/-- A context whose queue is at 0x10000. -/
def contextEnv : Env := ⟨fun a => if a = 0x100A then 1 else 0, fun _ => 0⟩

def freshCqp : Cqp := ⟨false, 0, 0, 0, 0, 0, 0, 0, 0, 0, []⟩

/-- Two WQEs, one by one. -/
theorem cqp_in_order_iff_two :
    (rings 64 (create contextEnv 0 0x1000 freshCqp) [⟨1, contextEnv⟩, ⟨1, contextEnv⟩]).2 = 2 ∧
    ∀ pre, pre <+: [⟨1, contextEnv⟩, ⟨1, contextEnv⟩] →
      InOrder 0x10000 64 (rings 64 (create contextEnv 0 0x1000 freshCqp) pre).2
        (rings 64 (create contextEnv 0 0x1000 freshCqp) pre).1 := by
  have hbase : word (readBytes contextEnv.mem (0 * 2 ^ 32 + 0x1000) 64) 8 = 0x10000 := by decide
  refine ⟨rfl, ?_⟩
  rw [← hbase]
  exact (cqp_in_order_iff contextEnv freshCqp 0 0x1000 6 [⟨1, contextEnv⟩, ⟨1, contextEnv⟩] rfl rfl (by decide)).2
    ⟨by decide, by decide⟩

/-- Two WQEs at once: the second is not fetched. Four in a ring of four: the last one is not. -/
theorem cqp_leaves_behind :
    (∃ s, rings 64 (create contextEnv 0 0x1000 freshCqp) [⟨2, contextEnv⟩] = (s, 2) ∧
      (fetched s.log).map Prod.fst = [0x10000] ∧ ¬InOrder 0x10000 64 2 s) ∧
    ∃ s, rings 4 (create contextEnv 0 0x1000 freshCqp) (List.replicate 4 ⟨1, contextEnv⟩) = (s, 4) ∧
      (fetched s.log).map Prod.fst = [0x10000, 0x10040, 0x10080] ∧ ¬InOrder 0x10000 4 4 s := by
  have hbatch : (fetched (rings 64 (create contextEnv 0 0x1000 freshCqp) [⟨2, contextEnv⟩]).1.log).map Prod.fst =
      [0x10000] := by decide +kernel
  have hwrap : (fetched (rings 4 (create contextEnv 0 0x1000 freshCqp) (List.replicate 4 ⟨1, contextEnv⟩)).1.log).map
      Prod.fst = [0x10000, 0x10040, 0x10080] := by decide +kernel
  refine ⟨⟨_, rfl, hbatch, fun h => ?_⟩, _, rfl, hwrap, fun h => ?_⟩
  · exact absurd (hbatch.symm.trans h.addrs) (by decide)
  · exact absurd (hwrap.symm.trans h.addrs) (by decide)

end Vmux.ControlQueuePair
