import Vmux.Bytes
import Vmux.CircularWindow
import Vmux.Transitions

namespace Vmux.DescriptorQueue

open Bytes CircularWindow Transitions

abbrev maxActiveDescs : ℕ := 128
def maxDmaSize : ℕ := 9024
def maxFetchCapacity : ℕ := 0xffffffff
def maxActiveCapacity : ℕ := 0xffffffff
def maxWritebackCapacity : ℕ := 0xffffffff

/-- Subtraction of `uint32_t` values. -/
def sub32 (a b : ℕ) : ℕ := (a + 0x100000000 - b) % 0x100000000

abbrev Slot := Fin maxActiveDescs

instance : NeZero maxActiveDescs := ⟨by decide⟩

inductive DescState
  | empty | fetching | preparing | prepared | processing | processed | writingBack | writtenBack
deriving DecidableEq, Repr

/-- Position in the enumeration, which `trigger_process` compares. -/
def DescState.code : DescState → ℕ
  | empty => 0 | fetching => 1 | preparing => 2 | prepared => 3
  | processing => 4 | processed => 5 | writingBack => 6 | writtenBack => 7

structure DescCtx where
  state : DescState
  index : ℕ
  desc : List UInt8
  data : List UInt8
deriving DecidableEq, Repr

structure QueueBase where
  ctxs : Slot → DescCtx
  activeFirstPos : ℕ
  activeFirstIdx : ℕ
  activeCnt : ℕ
  base : ℕ
  len : ℕ
  regHead : ℕ
  regTail : ℕ
  enabled : Bool
  descLen : ℕ

namespace QueueBase

variable (q : QueueBase)

def ctx (k : ℕ) : DescCtx := q.ctxs (slot maxActiveDescs k)

def stateAt (k : ℕ) : DescState := (q.ctx k).state

def modify (p : Slot) (f : DescCtx → DescCtx) : QueueBase :=
  { q with ctxs := Function.update q.ctxs p (f (q.ctxs p)) }

def setState (p : Slot) (s : DescState) : QueueBase := q.modify p fun x => { x with state := s }

def markRange (first cnt : ℕ) (s : DescState) : QueueBase :=
  { q with ctxs := update q.ctxs first cnt fun _ x => { x with state := s } }

def allInState (first cnt : ℕ) (s : DescState) : Bool :=
  (List.range cnt).all fun i => q.stateAt (first + i) = s

def nextIdx : ℕ := (q.activeFirstIdx + q.activeCnt) % q.len

def descAvail : ℕ := sub32 q.regTail q.nextIdx % q.len

def fetchCnt : ℕ :=
  let cnt := min q.descAvail (maxActiveDescs - q.activeCnt)
  let cnt := if maxActiveCapacity ≤ q.activeCnt then min cnt (maxActiveCapacity - q.activeCnt) else cnt
  let cnt := min cnt maxFetchCapacity
  if q.nextIdx + cnt > q.len then q.len - q.nextIdx else cnt

def fetchPos : ℕ := (q.activeFirstPos + q.activeCnt) % maxActiveDescs

def fetchAddr : ℕ := (q.base + q.nextIdx * q.descLen) % 0x10000000000000000

def beginFetch : QueueBase :=
  { q with
    ctxs := update q.ctxs q.fetchPos q.fetchCnt fun i x =>
      { x with state := .fetching, index := (q.nextIdx + i) % q.len }
    activeCnt := q.activeCnt + q.fetchCnt }

def firstUnprocessed : ℕ :=
  scan (fun i => (q.stateAt (q.activeFirstPos + i)).code ≤ DescState.prepared.code) q.activeCnt

def writebackAvail : ℕ :=
  scan (fun i => q.stateAt (q.activeFirstPos + i) ≠ .processed) q.activeCnt

def writebackCnt : ℕ :=
  let cnt := min q.writebackAvail maxWritebackCapacity
  if q.activeFirstIdx + cnt > q.len then sub32 q.len q.activeFirstIdx else cnt

def writebackAddr : ℕ := (q.base + q.activeFirstIdx * q.descLen) % 0x10000000000000000

def bumpCnt : ℕ := scan (fun i => q.stateAt (q.activeFirstPos + i) ≠ .writtenBack) q.activeCnt

/-- The second half of `writeback_done`: free what has been written back at the front. -/
def bump : QueueBase :=
  { q.markRange q.activeFirstPos q.bumpCnt .empty with
    activeFirstPos := (q.activeFirstPos + q.bumpCnt) % maxActiveDescs
    activeFirstIdx := (q.activeFirstIdx + q.bumpCnt) % q.len
    activeCnt := q.activeCnt - q.bumpCnt
    regHead := (q.activeFirstIdx + q.bumpCnt) % q.len }

def reset : QueueBase :=
  { q with
    ctxs := fun p => { q.ctxs p with state := .empty }
    enabled := false
    activeFirstPos := 0
    activeFirstIdx := 0
    activeCnt := 0 }

end QueueBase

inductive Fault
  | stateAssertion | abort | divisionByZero | outOfBounds | dma
deriving DecidableEq, Repr

/-- Calls that leave the queue, in the order in which they are made. -/
inductive Output
  | ethSend (bytes : List UInt8)
  | ethSendTso (bytes : List UInt8) (eop : Bool) (l2Len l3Len l4Len segSz : ℕ) (accepted : Bool)
  | addSwitchRule (etype queue : ℕ)
  | qenaUpdated (txq : ℕ)
deriving DecidableEq, Repr

/-- What a call of `prepare` on a freshly fetched descriptor asks for. -/
inductive Prepare
  | prepared
  | dataFetch (addr len : ℕ)
  | abort
deriving DecidableEq, Repr

/-- What the code of a subclass does between two DMA operations. -/
structure Effect (σ κ : Type) where
  client : σ
  descs : List (Slot × List UInt8) := []
  datas : List (Slot × List UInt8) := []
  finished : List Slot := []
  write : Option (Slot × ℕ × List UInt8) := none
  next : Option κ := none
  calls : List Output := []

def Effect.released {σ κ : Type} (e : Effect σ κ) : List Slot := e.finished ++ e.write.toList.map (·.1)

/--
The virtual functions of `queue_base`. The client state `σ` holds contexts in order
between `process` and `processed`, a continuation `κ` is the rest of a subclass loop,
and `ε`, `ι` are what the environment answers and what it delivers.
-/
structure Subclass (ε ι σ κ : Type) where
  prepare : List UInt8 → Prepare
  process : ε → σ → (Slot → DescCtx) → Slot → Except Fault (Effect σ κ)
  resume : ε → σ → (Slot → DescCtx) → κ → Except Fault (Effect σ κ)
  receive : ε → σ → QueueBase → ι → Except Fault (Option κ)
  headWriteBack : σ → Option ℕ
  held : σ → List Slot
  process_held : ∀ {env s ctxs p e}, process env s ctxs p = .ok e →
    (held s ++ [p]).Perm (e.released ++ held e.client)
  resume_held : ∀ {env s ctxs k e}, resume env s ctxs k = .ok e →
    (held s).Perm (e.released ++ held e.client)
  process_state : ∀ env s ctxs p, process env s ctxs p ≠ .error .stateAssertion
  resume_state : ∀ env s ctxs k, resume env s ctxs k ≠ .error .stateAssertion

structure Env (ε : Type) where
  mem : ℕ → UInt8
  mapped : ℕ → ℕ → Bool
  client : ε

def Env.read {ε : Type} (env : Env ε) (addr n : ℕ) : List UInt8 :=
  readBytes env.mem addr n

/-- Code that is still to run, innermost call first. -/
inductive Cmd (κ : Type)
  | triggerFetch
  | triggerProcess
  | triggerWriteback
  | processLoop (i j : ℕ)
  | fetchDone (pos cnt i : ℕ) (buf : List UInt8)
  | dataFetch (p : Slot) (addr off total : ℕ)
  | dataWritten (p : Slot)
  | writebackDone (pos cnt : ℕ)
  | resume (k : κ)

inductive Event
  | fetch (pos idx cnt addr : ℕ)
  | process (p : Slot) (idx : ℕ)
  | writeBack (pos idx cnt addr : ℕ) (bytes : List UInt8)
  | headWriteBack (pos idx cnt addr : ℕ) (bytes : List UInt8)
  | dataRead (p : Slot) (addr len : ℕ)
  | dataWrite (p : Slot) (addr : ℕ) (bytes : List UInt8)
  | call (o : Output)
  | interrupt
deriving DecidableEq, Repr

structure Config (σ κ : Type) where
  q : QueueBase
  client : σ
  stack : List (Cmd κ)
  log : List Event

section

variable {ε ι σ κ : Type} (S : Subclass ε ι σ κ) (env : Env ε) (c : Config σ κ)

def trigger (κ : Type) : List (Cmd κ) := [.triggerFetch, .triggerProcess, .triggerWriteback]

def triggerFetch : Except Fault (Config σ κ) :=
  if !c.q.enabled then .ok c
  else if c.q.len = 0 then .error .divisionByZero
  else if c.q.fetchCnt = 0 then .ok c
  else if !c.q.allInState c.q.fetchPos c.q.fetchCnt .empty then .error .stateAssertion
  else if !env.mapped c.q.fetchAddr (c.q.descLen * c.q.fetchCnt) then .error .dma
  else .ok { c with
    q := c.q.beginFetch
    stack := .fetchDone c.q.fetchPos c.q.fetchCnt 0
      (env.read c.q.fetchAddr (c.q.descLen * c.q.fetchCnt)) :: c.stack
    log := c.log ++ [.fetch c.q.fetchPos c.q.nextIdx c.q.fetchCnt c.q.fetchAddr] }

def triggerProcess : Config σ κ :=
  if !c.q.enabled then c
  else { c with stack := .processLoop c.q.firstUnprocessed 0 :: c.stack }

def setDescs : List (Slot × List UInt8) → QueueBase → QueueBase
  | [], q => q
  | (p, d) :: ds, q => setDescs ds (q.modify p fun x => { x with desc := d })

def setDatas : List (Slot × List UInt8) → QueueBase → QueueBase
  | [], q => q
  | (p, d) :: ds, q => setDatas ds (q.modify p fun x => { x with data := d })

/-- `processed()` on each of these contexts. -/
def finish : List Slot → QueueBase → Except Fault QueueBase
  | [], q => .ok q
  | p :: ps, q =>
    if (q.ctxs p).state = .processing then finish ps (q.setState p .processed) else .error .stateAssertion

def applyEffect (e : Effect σ κ) : Except Fault (Config σ κ) := do
  let q ← finish e.finished (setDatas e.datas (setDescs e.descs c.q))
  let rest := (e.next.toList.map Cmd.resume) ++ c.stack
  let log := c.log ++ e.calls.map Event.call
  match e.write with
  | none => .ok { q, client := e.client, stack := rest, log }
  | some (p, addr, bytes) =>
    if !env.mapped addr bytes.length then .error .dma
    else .ok { q, client := e.client, stack := .dataWritten p :: rest,
               log := log ++ [.dataWrite p addr bytes] }

def processLoop (i j : ℕ) : Except Fault (Config σ κ) :=
  let p := slot maxActiveDescs (c.q.activeFirstPos + (i + j))
  if i + j < c.q.activeCnt ∧ (c.q.ctxs p).state = .prepared then do
    let q := c.q.setState p .processing
    let e ← S.process env.client c.client q.ctxs p
    applyEffect env { c with
      q, stack := .processLoop i (j + 1) :: c.stack
      log := c.log ++ [.process p (q.ctxs p).index] } e
  else .ok c

/-- `data_fetch` grows the buffer of the context when it is too small. -/
def growData (len : ℕ) (x : DescCtx) : DescCtx :=
  if x.data.length < len then { x with data := List.replicate len 0 } else x

def fetchDone (pos cnt i : ℕ) (buf : List UInt8) : Except Fault (Config σ κ) :=
  if i < cnt then
    let p := slot maxActiveDescs (pos + i)
    let d := slice buf (c.q.descLen * i) c.q.descLen
    let q := c.q.modify p fun x => { x with state := .preparing, desc := d }
    let rest := .fetchDone pos cnt (i + 1) buf :: c.stack
    match S.prepare d with
    | .prepared => .ok { c with q := q.setState p .prepared, stack := rest }
    | .dataFetch addr len =>
      .ok { c with q := q.modify p (growData len), stack := .dataFetch p addr 0 len :: rest }
    | .abort => .error .abort
  else .ok { c with stack := trigger κ ++ c.stack }

/-- One part of `dma_data_fetch`: the read done by `IssueDma`, then `done`. -/
def dataFetch (p : Slot) (addr off total : ℕ) : Except Fault (Config σ κ) :=
  let n := min (total - off) maxDmaSize
  if !env.mapped (addr + off) n then .error .dma
  else
    let q := c.q.modify p fun x => { x with data := overwrite x.data off (env.read (addr + off) n) }
    let log := c.log ++ [.dataRead p (addr + off) n]
    if off + n < total then
      .ok { c with q, log, stack := .dataFetch p addr (off + n) total :: c.stack }
    else if (q.ctxs p).state = .preparing then
      .ok { c with q := q.setState p .prepared, log, stack := trigger κ ++ c.stack }
    else .error .stateAssertion

def dataWritten (p : Slot) : Except Fault (Config σ κ) :=
  if (c.q.ctxs p).state = .processing then
    .ok { c with q := c.q.setState p .processed, stack := trigger κ ++ c.stack }
  else .error .stateAssertion

def triggerWriteback : Except Fault (Config σ κ) :=
  if !c.q.enabled then .ok c
  else if c.q.writebackCnt = 0 then .ok c
  else
    let pos := c.q.activeFirstPos
    let cnt := c.q.writebackCnt
    let q := c.q.markRange pos cnt .writingBack
    let rest := .writebackDone pos cnt :: c.stack
    match S.headWriteBack c.client with
    | none =>
      if !env.mapped q.writebackAddr (q.descLen * cnt) then .error .dma
      else .ok { c with q, stack := rest, log := c.log ++ [.writeBack pos q.activeFirstIdx cnt
        q.writebackAddr ((List.range cnt).flatMap fun i => (q.ctx (pos + i)).desc)] }
    | some addr =>
      if q.len = 0 then .error .divisionByZero
      else if !env.mapped addr 4 then .error .dma
      else .ok { c with q, stack := rest, log := c.log ++ [.headWriteBack pos q.activeFirstIdx cnt addr
        (leBytes 4 ((q.activeFirstIdx + cnt) % q.len))] }

def writebackDone (pos cnt : ℕ) : Except Fault (Config σ κ) :=
  if !c.q.enabled then .ok { c with stack := trigger κ ++ c.stack }
  else if !c.q.allInState pos cnt .writingBack then .error .stateAssertion
  else if c.q.len = 0 then .error .divisionByZero
  else .ok { c with
    q := (c.q.markRange pos cnt .writtenBack).bump
    stack := trigger κ ++ c.stack
    log := c.log ++ [.interrupt] }

def resume (k : κ) : Except Fault (Config σ κ) := do
  applyEffect env c (← S.resume env.client c.client c.q.ctxs k)

/-- Run one pending command; the stack of `c` is what remains below it. -/
def exec : Cmd κ → Except Fault (Config σ κ)
  | .triggerFetch => triggerFetch env c
  | .triggerProcess => .ok (triggerProcess c)
  | .triggerWriteback => triggerWriteback S env c
  | .processLoop i j => processLoop S env c i j
  | .fetchDone pos cnt i buf => fetchDone S c pos cnt i buf
  | .dataFetch p addr off total => dataFetch env c p addr off total
  | .dataWritten p => dataWritten c p
  | .writebackDone pos cnt => writebackDone c pos cnt
  | .resume k => resume S env c k

def tailWrite (t : ℕ) : Config σ κ :=
  { c with
    q := { c.q with regTail := t }
    stack := (if c.q.enabled then trigger κ else []) ++ c.stack }

def receive (x : ι) : Except Fault (Config σ κ) := do
  let k ← S.receive env.client c.client c.q x
  .ok { c with stack := (k.toList.map Cmd.resume) ++ c.stack }

end

/-- Just enabled after a reset. The contexts keep the bytes of earlier descriptors, and the
widest of the three length fields has 14 bits. -/
structure Enabled {ε ι σ κ : Type} (S : Subclass ε ι σ κ) (base len : ℕ) (c : Config σ κ) : Prop where
  enabled : c.q.enabled = true
  base_eq : c.q.base = base
  len_eq : c.q.len = len
  len_pos : 1 ≤ len
  len_lt : len < 0x4000
  first_pos : c.q.activeFirstPos = 0
  first_idx : c.q.activeFirstIdx = 0
  cnt : c.q.activeCnt = 0
  empty : ∀ p, (c.q.ctxs p).state = .empty
  held : S.held c.client = []
  stack : c.stack = trigger κ
  log : c.log = []

/-- A step of the cascade, or the guest or the wire acting on a queue at rest. -/
inductive QueueStep {ε ι σ κ : Type} (S : Subclass ε ι σ κ) (c c' : Config σ κ) : Prop
  | exec (env : Env ε) (cmd : Cmd κ) (rest : List (Cmd κ)) (hs : c.stack = cmd :: rest)
      (h : exec S env { c with stack := rest } cmd = .ok c')
  | tail (t : ℕ) (ht : t < 0x100000000) (hs : c.stack = []) (h : c' = tailWrite c t)
  | receive (env : Env ε) (x : ι) (hs : c.stack = []) (h : receive S env c x = .ok c')

def machine {ε ι σ κ : Type} (S : Subclass ε ι σ κ) (base len : ℕ) : Machine (Config σ κ) where
  start := Enabled S base len
  step := QueueStep S

def Faults {ε ι σ κ : Type} (S : Subclass ε ι σ κ) (c : Config σ κ) (f : Fault) : Prop :=
  ∃ (env : Env ε) (cmd : Cmd κ) (rest : List (Cmd κ)), c.stack = cmd :: rest ∧
    exec S env { c with stack := rest } cmd = .error f

end Vmux.DescriptorQueue
