import Vmux.QueueSteps
import Vmux.Switch

namespace Vmux.AdminQueue

open Bytes DescriptorQueue Switch

def numQueues : ℕ := 1536

def staticNodes : ℕ := 59

/-- What the commands keep in `e810_bm`. -/
structure AdminDev where
  gllanRctl0 : ℕ
  vsi0FirstQueue : ℕ
  lastReturnedNode : ℕ
  schedNodes : ℕ → Option (Slot × ℕ)
  topoElem : List UInt8
  rules : List Rule
  ctxAddr : ℕ → List UInt8
  qtxEna : ℕ → ℕ

def lastUsedParentNode : ℕ := 3

structure AdminEnv where
  mac : ℕ
  uninit : ℕ → UInt8

/-- A local structure before its fields are assigned. -/
def AdminEnv.struct (env : AdminEnv) (size : ℕ) : List UInt8 := (List.range size).map env.uninit

def flags (d : List UInt8) : ℕ := get16 d 0
def opcode (d : List UInt8) : ℕ := get16 d 2
def datalen (d : List UInt8) : ℕ := get16 d 4
def params : ℕ := 16
def bufferAddr (d : List UInt8) : ℕ := get32 d (params + 12) + get32 d (params + 8) * 0x100000000

def flagRd : ℕ := 0x400

def prepare (d : List UInt8) : Prepare :=
  if flags d / flagRd % 2 = 1 then .dataFetch (bufferAddr d) (datalen d) else .prepared

def descComplPrepare (retval : ℕ) (d : List UInt8) : List UInt8 :=
  put16 6 retval (put16 0 (flags d / 0x200 * 0x200 + 3 + if retval = 0 then 0 else 4) d)

/-- `later` is the answer to `add_txqs`, which first enables the queue. -/
inductive Reply
  | later
  | direct (retval : ℕ)
  | indirect (retval : ℕ) (bytes : List UInt8)
deriving DecidableEq, Repr

/-- The outcome of a command: its descriptor and data buffer, and how it is completed. -/
structure Handled where
  desc : List UInt8
  data : List UInt8
  dev : AdminDev
  reply : Reply
  calls : List Output := []

def need (n : ℕ) (data : List UInt8) : Except Fault Unit :=
  if data.length < n then .error .outOfBounds else .ok ()

/-- `desc_complete_indir(0, data, d->datalen)`. -/
def replyData (desc data : List UInt8) (dev : AdminDev) (calls : List Output) : Except Fault Handled := do
  need (datalen desc) data
  .ok { desc, data, dev, reply := .indirect 0 (data.take (datalen desc)), calls }

def capsElem (cap major minor number logicalId physId : ℕ) : List UInt8 :=
  leBytes 2 cap ++ leBytes 1 major ++ leBytes 1 minor ++ leBytes 4 number ++ leBytes 4 logicalId ++
    leBytes 4 physId ++ leBytes 8 0 ++ leBytes 8 0

def caps : List UInt8 :=
  capsElem 0x0005 1 0 2 1 0 ++ capsElem 0x0040 1 0 2048 4 0 ++ capsElem 0x0041 1 0 numQueues 0 0 ++
  capsElem 0x0042 1 0 numQueues 0 0 ++ capsElem 0x0043 1 0 2048 0 0 ++ capsElem 0x0017 1 0 383 0 0 ++
  capsElem 0x0018 1 0 1 4 1 ++ capsElem 0x0051 1 0 1 1 1 ++ capsElem 0x0045 1 0 8192 8192 0 ++
  capsElem 0x0046 1 1 0x1600008F 1 1

def getVer (d : List UInt8) : List UInt8 :=
  put8 (params + 14) 5 (put8 (params + 13) 1 (put8 (params + 10) 0 (put8 (params + 9) 6
    (put32 (params + 4) 0 (put32 params 0 d)))))

def macReadResp (env : AdminEnv) : List UInt8 :=
  overwrite (put8 1 0 (env.struct 8)) 2 (leBytes 6 env.mac)

def phyCaps (env : AdminEnv) : List UInt8 :=
  put16 18 0x40 (put8 16 0x18 (put64 8 2 (put64 0 0x40000000 (env.struct 560))))

def linkStatus (env : AdminEnv) : List UInt8 :=
  put16 6 2048 (put8 4 0 (put8 3 3 (put8 2 0xE1 (put16 10 0x100 (put64 16 0x40000000 (env.struct 32))))))

def swCfg (env : AdminEnv) : List UInt8 := env.struct 6 ++ leBytes 2 1 ++ leBytes 2 0 ++ leBytes 2 0

/-- "ICE OS Default Package", padded with zeros to `ICE_SEG_NAME_SIZE`. -/
def pkgName : List UInt8 :=
  [73, 67, 69, 32, 79, 83, 32, 68, 101, 102, 97, 117, 108, 116, 32, 80, 97, 99, 107, 97, 103, 101, 0, 0, 0, 0, 0, 0]

def pkgInfoList (env : AdminEnv) : List UInt8 :=
  leBytes 4 1 ++ put8 37 1 (overwrite (overwrite (env.struct 40) 0 [1, 3, 30, 0]) 4 pkgName)

def vsiProps (env : AdminEnv) : List UInt8 :=
  let pd := env.struct 128
  put16 0 (get16 pd 0 ||| 0xC1) pd

def querySchedRes (env : AdminEnv) : List UInt8 :=
  put16 138 8 (put16 106 32 (put16 74 2 (put16 42 1 (put16 0 3 (put16 2 4 (env.struct 320))))))

def knownResTypes : List ℕ := [0x04, 0x21, 0x22, 0x23, 0x58, 0x59, 0x60, 0x61]

/-- The loop over the requested resources: entry `i` is answered with the stub id `i`. -/
def allocRes (resType : ℕ) : ℕ → ℕ → List UInt8 → Except Fault (List UInt8)
  | 0, _, data => .ok data
  | n + 1, i, data => do
    need (4 + 2 * i + 2) data
    allocRes resType n (i + 1) (if resType % 0x80 ∈ knownResTypes then put16 (4 + 2 * i) i data else data)

def topoNode (i parent type : ℕ) (l : List UInt8) : List UInt8 :=
  put8 (8 + 24 * i + 8) type (put32 (8 + 24 * i) parent (put32 (8 + 24 * i + 4) i l))

def defaultTopo (topo : List UInt8) : List UInt8 :=
  topoNode 6 2 2 (topoNode 5 2 2 (topoNode 4 1 2 (topoNode 3 1 2 (topoNode 2 0 3 (topoNode 1 0 4
    (topoNode 0 0xFFFFFFFF 1 (put16 4 7 topo)))))))

/-- The static part of the scheduler tree, as (parent, element type). -/
def staticElem : ℕ → Option (ℕ × ℕ)
  | 0 => some (0xFFFFFFFF, 1)
  | 1 => some (0, 2)
  | 2 => some (1, 4)
  | 3 => some (2, 3)
  | 4 => some (3, 3)
  | 5 => some (4, 3)
  | 6 | 22 | 38 | 54 => some (5, 3)
  | 55 | 56 | 57 | 58 | 59 => some (55, 3)
  | _ => none

/-- The cases 55 to 59 of the switch have no `break` and run into the default case. -/
def fallsThrough (teid : ℕ) : Bool := 55 ≤ teid

/-- How much of the element is read and written before it is sent back. -/
def schedUse (dev : AdminDev) (teid : ℕ) : ℕ :=
  if (staticElem teid).isSome ∧ !fallsThrough teid then 9
  else if (dev.schedNodes teid).isSome then 24
  else if (staticElem teid).isSome then 9
  else 8

def getSchedElem (dev : AdminDev) (ctxs : Slot → DescCtx) (data : List UInt8) : Except Fault (List UInt8) :=
  let teid := get32 data 4
  let data := match staticElem teid with
    | some (parent, type) => put8 8 type (put32 0 parent data)
    | none => data
  if (staticElem teid).isSome ∧ !fallsThrough teid then .ok data
  else match dev.schedNodes teid with
    | none => .ok data
    | some (q, off) => do
      need (off + 24) (ctxs q).data
      .ok (overwrite data 0 (slice (ctxs q).data off 24))

def addSchedElems (p : Slot) : ℕ → ℕ → List UInt8 → AdminDev → Except Fault (List UInt8 × AdminDev)
  | 0, _, data, dev => .ok (data, dev)
  | n + 1, i, data, dev => do
    need (8 + 24 * i + 24) data
    addSchedElems p n (i + 1) (put32 (8 + 24 * i + 4) dev.lastReturnedNode data)
      { dev with
        schedNodes := Function.update dev.schedNodes dev.lastReturnedNode (some (p, 8 + 24 * i))
        lastReturnedNode := dev.lastReturnedNode + 1 }

def addTxqs (dev : AdminDev) (data : List UInt8) : List UInt8 :=
  put16 50 100 (put16 46 100 (put8 40 5 (put32 12 dev.lastReturnedNode (put8 4 1 (put32 0 lastUsedParentNode data)))))

def qenaReq : ℕ := 1

def nvmRead (offset : ℕ) : ℕ × List UInt8 :=
  if offset = 0x0 then (0, leBytes 2 0x78)
  else if offset = 0x84 then (0, leBytes 2 0x8020)
  else if offset = 0x86 then (0, leBytes 2 0x41a)
  else if offset = 0x88 then (0, leBytes 2 0x8854)
  else if offset = 0x8a then (0, leBytes 2 0x7d)
  else if offset = 0x8c then (0, leBytes 2 0x894e)
  else if offset = 0x43a004 then (0, leBytes 2 0xa1)
  else if offset = 0x43a006 then (0, leBytes 2 0x0)
  else if offset < 0xc00000 then (0, leBytes 1 0x40)
  else (14, leBytes 1 0x40)

/-- Besides its fixed part, `print_sw_rule` dumps the header of a rule that forwards to a queue. -/
def ruleUse (r : RuleElem) : ℕ := 16 + if r.type ≤ 1 ∧ r.actionType = 1 then r.hdrLen else 0

def addSwRules (dev : AdminDev) (desc data : List UInt8) : Except Fault Handled := do
  let r := ruleElem data
  need (ruleUse r) data
  replyData desc (put16 12 0 (put16 6 1 (put16 0 1 data))) { dev with rules := addRule dev.rules r }
    (if r.Supported then [.addSwitchRule r.etype (r.dstQueue dev.vsi0FirstQueue)] else [])

/-- The commands of `admin_desc_ctx::process`, by opcode. -/
def handle (env : AdminEnv) (dev : AdminDev) (ctxs : Slot → DescCtx) (p : Slot) : Except Fault Handled :=
  let d := (ctxs p).desc
  let data := (ctxs p).data
  let direct (d : List UInt8) (retval : ℕ) : Except Fault Handled := .ok { desc := d, data, dev, reply := .direct retval }
  let indirect (d bytes : List UInt8) : Except Fault Handled := .ok { desc := d, data, dev, reply := .indirect 0 bytes }
  match opcode d with
  | 0x0001 => direct (getVer d) 0
  | 0x0008 => direct (put32 (params + 4) 180000 d) 0
  | 0x0009 => direct d 0
  | 0x0110 => .ok { desc := d, data, dev := { dev with gllanRctl0 := 0 }, reply := .direct 0 }
  | 0x000A | 0x000B =>
    if caps.length ≤ datalen d then indirect (put32 (params + 4) 10 d) caps
    else direct (put16 4 caps.length d) 9
  | 0x0A05 => direct d 0
  | 0x0107 => indirect (put16 params 0x50 (put8 (params + 4) 1 d)) (macReadResp env)
  | 0x0600 => indirect (put32 (params + 4) 0 (put32 params 0 d)) (phyCaps env)
  | 0x0607 => indirect (put16 (params + 2) (get16 d (params + 2) % 2) d) (linkStatus env)
  | 0x0200 => indirect (put16 (params + 4) 1 d) (swCfg env)
  | 0x0C43 => indirect d (pkgInfoList env)
  | 0x0B02 => replyData d data dev []
  | 0x0B03 =>
    let size512 := get16 d (params + 2) / 4 % 4 = 1
    replyData d data (if size512 then { dev with vsi0FirstQueue := 1 } else dev) []
  | 0x0208 => do
    need 2 data
    let data ← allocRes (get16 data 0) (get16 d params) 0 data
    replyData d data dev []
  | 0x0210 => indirect (put16 params 1 d) (vsiProps env)
  | 0x0211 => direct d 0
  | 0x0292 => do
    -- the recipe is only printed, up to its default action
    need 44 data
    direct d 0
  | 0x02A2 => do
    need (if get16 data 0 ≤ 1 then 14 else 2) data
    let data := if get16 data 0 ≤ 1 then put16 12 0 data else data
    let len := min 102 (datalen d)
    need len data
    .ok { desc := d, data, dev, reply := .indirect 0 (data.take len) }
  | 0x0400 =>
    let topoElem := defaultTopo dev.topoElem
    .ok { desc := put8 (params + 1) 2 (put8 params 1 d), data, dev := { dev with topoElem },
          reply := .indirect 0 topoElem }
  | 0x0404 => do
    need (schedUse dev (get32 data 4)) data
    let data ← getSchedElem dev ctxs data
    need (if 24 ≤ datalen d then 24 else 0) data
    .ok { desc := put16 (params + 2) 1 d, data, dev, reply := .indirect 0 (data.takeD 24 0) }
  | 0x0401 => do
    need 8 data
    let r ← addSchedElems p (get16 data 4) 0 data dev
    replyData (put16 (params + 2) 1 d) r.1 r.2 []
  | 0x040F => replyData (put16 (params + 2) 1 d) data dev []
  | 0x0412 => indirect (put16 (params + 2) 1 d) (querySchedRes env)
  | 0x0C30 => do
    need 56 data
    let idx := get16 data 8
    if numQueues ≤ idx then .error .outOfBounds
    else .ok {
      desc := d
      data := addTxqs dev data
      dev := { dev with
        ctxAddr := Function.update dev.ctxAddr idx (slice data 16 22)
        qtxEna := Function.update dev.qtxEna idx qenaReq }
      reply := .later
      calls := [.qenaUpdated idx] }
  | 0x0C31 => do
    need 5 data
    replyData d (put8 4 1 data) dev []
  | 0x0C40 => replyData (put32 (params + 4) 0 (put32 params 0 d)) data dev []
  | 0x02A0 => addSwRules dev d data
  | 0x0701 =>
    let r := nvmRead (get16 d params + get8 d (params + 2) * 0x10000)
    .ok { desc := d, data, dev, reply := .indirect r.1 r.2 }
  | _ => direct d 0

structure AdminClient where
  dev : AdminDev
  pending : List Slot

/-- `desc_complete` or `desc_complete_indir` for the context `p`. -/
def complete (s : AdminClient) (p : Slot) (h : Handled) : Except Fault (Effect AdminClient Unit) :=
  match h.reply with
  | .later => .ok {
      client := { s with pending := s.pending ++ [p] }
      descs := [(p, h.desc)]
      datas := [(p, h.data)]
      next := some ()
      calls := h.calls }
  | .direct retval => .ok {
      client := s
      descs := [(p, descComplPrepare retval h.desc)]
      datas := [(p, h.data)]
      finished := [p]
      calls := h.calls }
  | .indirect retval bytes =>
    if datalen h.desc < bytes.length then .error .abort
    else .ok {
      client := s
      descs := [(p, descComplPrepare retval (put16 4 bytes.length h.desc))]
      datas := [(p, h.data)]
      write := some (p, bufferAddr h.desc, bytes)
      calls := h.calls }

def process (env : AdminEnv) (s : AdminClient) (ctxs : Slot → DescCtx) (p : Slot) :
    Except Fault (Effect AdminClient Unit) := do
  let h ← handle env s.dev ctxs p
  complete { s with dev := h.dev } p h

def resume (s : AdminClient) (ctxs : Slot → DescCtx) : Except Fault (Effect AdminClient Unit) :=
  match s.pending with
  | [] => .error .outOfBounds
  | p :: pending => do
    let h ← replyData (ctxs p).desc (ctxs p).data s.dev []
    complete { s with pending } p h

theorem Except.ok_ne_error {α : Type} (a : α) (f : Fault) : (Except.ok a : Except Fault α) ≠ .error f := by
  rintro ⟨⟩

theorem need_error {n : ℕ} {data : List UInt8} {f : Fault} (h : need n data = .error f) : f = .outOfBounds := by
  unfold need at h
  split at h <;> cases h
  rfl

theorem need_ok {n : ℕ} {data : List UInt8} (h : n ≤ data.length) : need n data = .ok () := by
  rw [need, if_neg (by omega)]

theorem need_length {n : ℕ} {data : List UInt8} (h : need n data = .ok ()) : n ≤ data.length := by
  unfold need at h
  split at h
  · cases h
  · omega

theorem replyData_error {desc data : List UInt8} {dev : AdminDev} {calls : List Output} {f : Fault}
    (h : replyData desc data dev calls = .error f) : f = .outOfBounds := by
  rcases bind_error h with h | ⟨_, -, h⟩
  · exact need_error h
  · cases h

theorem allocRes_error {resType n i : ℕ} {data : List UInt8} {f : Fault} (h : allocRes resType n i data = .error f) :
    f = .outOfBounds := by
  induction n generalizing i data with
  | zero => cases h
  | succ n ih =>
    rcases bind_error h with h | ⟨_, -, h⟩
    · exact need_error h
    · exact ih h

theorem addSchedElems_error {p : Slot} {n i : ℕ} {data : List UInt8} {dev : AdminDev} {f : Fault}
    (h : addSchedElems p n i data dev = .error f) : f = .outOfBounds := by
  induction n generalizing i data dev with
  | zero => cases h
  | succ n ih =>
    rcases bind_error h with h | ⟨_, -, h⟩
    · exact need_error h
    · exact ih h

theorem getSchedElem_error {dev : AdminDev} {ctxs : Slot → DescCtx} {data : List UInt8} {f : Fault}
    (h : getSchedElem dev ctxs data = .error f) : f = .outOfBounds := by
  unfold getSchedElem at h
  dsimp only at h
  split at h
  · cases h
  · split at h
    · cases h
    · rcases bind_error h with h | ⟨_, -, h⟩
      · exact need_error h
      · cases h

theorem addSwRules_error {dev : AdminDev} {desc data : List UInt8} {f : Fault}
    (h : addSwRules dev desc data = .error f) : f = .outOfBounds := by
  rcases bind_error h with h | ⟨_, -, h⟩
  · exact need_error h
  · exact replyData_error h

theorem handle_error {env : AdminEnv} {dev : AdminDev} {ctxs : Slot → DescCtx} {p : Slot} {f : Fault}
    (h : handle env dev ctxs p = .error f) : f = .outOfBounds := by
  unfold handle at h
  dsimp only at h
  split at h
  all_goals with_reducible first
    | exact absurd h (Except.ok_ne_error _ _)
    | exact replyData_error h
    | exact addSwRules_error h
    | skip
  · split at h <;> exact absurd h (Except.ok_ne_error _ _)
  · split at h <;> exact absurd h (Except.ok_ne_error _ _)
  all_goals rcases bind_error h with h | ⟨_, -, h⟩
  all_goals with_reducible first
    | exact need_error h
    | exact absurd h (Except.ok_ne_error _ _)
    | exact replyData_error h
    | skip
  · rcases bind_error h with h | ⟨_, -, h⟩
    · exact allocRes_error h
    · exact replyData_error h
  · rcases bind_error h with h | ⟨_, -, h⟩
    · exact need_error h
    · cases h
  · rcases bind_error h with h | ⟨_, -, h⟩
    · exact getSchedElem_error h
    · rcases bind_error h with h | ⟨_, -, h⟩
      · exact need_error h
      · cases h
  · rcases bind_error h with h | ⟨_, -, h⟩
    · exact addSchedElems_error h
    · exact replyData_error h
  · split at h <;> cases h
    rfl

theorem complete_error {s : AdminClient} {p : Slot} {h : Handled} {f : Fault} (he : complete s p h = .error f) :
    f = .abort := by
  unfold complete at he
  split at he
  · cases he
  · cases he
  · split at he <;> cases he
    rfl

theorem complete_held {s : AdminClient} {p : Slot} {h : Handled} {e : Effect AdminClient Unit}
    (he : complete s p h = .ok e) : (s.pending ++ [p]).Perm (e.released ++ e.client.pending) := by
  unfold complete at he
  split at he
  · cases he
    simp [Effect.released]
  · cases he
    simp [Effect.released]
  · split at he
    · cases he
    · cases he
      simp [Effect.released]

def subclass : Subclass AdminEnv Empty AdminClient Unit where
  prepare := prepare
  process := process
  resume _ s ctxs _ := resume s ctxs
  receive _ _ _ x := x.elim
  headWriteBack _ := none
  held := AdminClient.pending
  process_held := by
    intro env s ctxs p e he
    obtain ⟨h, -, he⟩ := bind_ok he
    exact complete_held (s := { s with dev := h.dev }) he
  resume_held := by
    intro env s ctxs k e he
    cases hp : s.pending with
    | nil => simp [resume, hp] at he
    | cons p pending =>
      simp only [resume, hp] at he
      obtain ⟨h, -, he⟩ := bind_ok he
      exact (List.perm_append_singleton p pending).symm.trans (complete_held he)
  process_state := by
    intro env s ctxs p he
    rcases bind_error he with he | ⟨h, -, he⟩
    · cases handle_error he
    · cases complete_error he
  resume_state := by
    intro env s ctxs k he
    unfold resume at he
    split at he
    · cases he
    · rcases bind_error he with he | ⟨h, -, he⟩
      · cases replyData_error he
      · cases complete_error he

end Vmux.AdminQueue
