import Vmux.SwitchIsolation

namespace Vmux.AdminBounds

open Bytes DescriptorQueue Switch AdminQueue SwitchIsolation

/-- The commands that touch their data buffer; those in `echo` only send it back. -/
inductive Usage
  | unused | echo | allocRes | getRecipe | removeSwRules | getSchedElems | addSchedElems | addTxqs | disTxqs | addSwRules
deriving DecidableEq, Repr

def usage : ℕ → Usage
  | 0x0B02 | 0x0B03 | 0x040F | 0x0C40 => .echo
  | 0x0208 => .allocRes
  | 0x0292 => .getRecipe
  | 0x02A2 => .removeSwRules
  | 0x0404 => .getSchedElems
  | 0x0401 => .addSchedElems
  | 0x0C30 => .addTxqs
  | 0x0C31 => .disTxqs
  | 0x02A0 => .addSwRules
  | _ => .unused

inductive Area
  | buffer | stored | ctxAddr | qtxEna | txqs
deriving DecidableEq, Repr

/-- `len` elements of an array, from `start` on. -/
structure Access where
  area : Area
  start : ℕ
  len : ℕ
deriving DecidableEq, Repr

/-- Elements of the array, when the buffer has `n` bytes. -/
def Area.size (n : ℕ) : Area → ℕ
  | buffer => n
  | stored => 0 -- the buffer of another command
  | ctxAddr | qtxEna => 2048
  | txqs => numQueues

def Access.InBounds (n : ℕ) (a : Access) : Prop := a.len = 0 ∨ a.start + a.len ≤ a.area.size n

def rd (d : List UInt8) : Prop := flags d / flagRd % 2 = 1

instance (d : List UInt8) : Decidable (rd d) := inferInstanceAs (Decidable (_ = _))

/-- The bytes that `prepare` fetches for this command. -/
def fetched (d : List UInt8) : ℕ := if rd d then datalen d else 0

def bytes (start len : ℕ) : Access := ⟨.buffer, start, len⟩

/-- The read through the pointer that `add_sched_elems` left in `sched_nodes`. It leads into the bytes of this command
only when the node was added through the same context and, as `kept` says, `data_fetch` has not replaced its buffer since. -/
def storedReads (dev : AdminDev) (kept : ℕ → Bool) (p : Slot) (teid : ℕ) : List Access :=
  match dev.schedNodes teid with
  | none => []
  | some (q, off) => [if kept teid ∧ q = p then bytes off 24 else ⟨.stored, off, 24⟩, bytes 0 24]

/-- What `admin_desc_ctx::process` reads and writes of its buffer and of the tables of the device. -/
def accesses (dev : AdminDev) (kept : ℕ → Bool) (p : Slot) (d data : List UInt8) : List Access :=
  match usage (opcode d) with
  | .unused => []
  | .echo => [bytes 0 (datalen d)]
  | .allocRes =>
    bytes 0 2 :: (List.range (get16 d params)).map (fun i => bytes (4 + 2 * i) 2) ++ [bytes 0 (datalen d)]
  | .getRecipe => [bytes 0 44]
  | .removeSwRules =>
    bytes 0 2 :: (if get16 data 0 ≤ 1 then [bytes 12 2] else []) ++ [bytes 0 (min 102 (datalen d))]
  | .getSchedElems =>
    let teid := get32 data 4
    bytes 4 4 :: (if (staticElem teid).isSome then [bytes 0 4, bytes 8 1] else []) ++
      (if (staticElem teid).isNone ∨ fallsThrough teid then storedReads dev kept p teid else []) ++
      if 24 ≤ datalen d then [bytes 0 24] else []
  | .addSchedElems =>
    bytes 0 8 :: (List.range (get16 data 4)).map (fun i => bytes (8 + 24 * i) 24) ++ [bytes 0 (datalen d)]
  | .addTxqs =>
    let idx := get16 data 8
    [bytes 0 56, ⟨.ctxAddr, idx, 1⟩, ⟨.qtxEna, idx, 1⟩, ⟨.txqs, idx, 1⟩, bytes 0 (datalen d)]
  | .disTxqs => [bytes 4 1, bytes 0 (datalen d)]
  | .addSwRules =>
    let r := ruleElem data
    bytes 0 16 :: (if r.type ≤ 1 ∧ r.actionType = 1 then [bytes 16 r.hdrLen] else []) ++
      (if r.Supported then [bytes 16 recipe1.length] else []) ++ [bytes 0 (datalen d)]

/-- A node that was added is found among the `n` bytes of this command. -/
def OwnNode (dev : AdminDev) (kept : ℕ → Bool) (p : Slot) (teid n : ℕ) : Prop :=
  (staticElem teid).isNone ∨ fallsThrough teid →
    ∀ q off, dev.schedNodes teid = some (q, off) → kept teid ∧ q = p ∧ off + 24 ≤ n

/-- The counts in the command fit the bytes that it brings along. -/
def Enough (dev : AdminDev) (kept : ℕ → Bool) (p : Slot) (d data : List UInt8) : Prop :=
  match usage (opcode d) with
  | .unused => True
  | .echo => rd d ∨ datalen d = 0
  | .allocRes => rd d ∧ 2 ≤ datalen d ∧ (get16 d params = 0 ∨ 4 + 2 * get16 d params ≤ datalen d)
  | .getRecipe => rd d ∧ 44 ≤ datalen d
  | .removeSwRules => rd d ∧ (if get16 data 0 ≤ 1 then 14 else 2) ≤ datalen d
  | .getSchedElems =>
    rd d ∧ schedUse dev (get32 data 4) ≤ datalen d ∧ OwnNode dev kept p (get32 data 4) (datalen d)
  | .addSchedElems => rd d ∧ 8 + 24 * get16 data 4 ≤ datalen d
  | .addTxqs => rd d ∧ 56 ≤ datalen d ∧ get16 data 8 < numQueues
  | .disTxqs => rd d ∧ 5 ≤ datalen d
  | .addSwRules => rd d ∧ ruleUse (ruleElem data) ≤ datalen d

theorem bytes_in (n start len : ℕ) : (bytes start len).InBounds n ↔ len = 0 ∨ start + len ≤ n := Iff.rfl

theorem elems_in {n count first size : ℕ} (hs : 0 < size) :
    (∀ a ∈ (List.range count).map fun i => bytes (first + size * i) size, a.InBounds n) ↔
      count = 0 ∨ first + size * count ≤ n := by
  rw [List.forall_mem_map]
  simp only [List.mem_range, bytes_in]
  constructor
  · intro h
    rcases Nat.eq_zero_or_pos count with hc | hc
    · exact .inl hc
    · rcases h (count - 1) (by omega) with h | h
      · exact absurd h hs.ne'
      · right
        obtain ⟨k, rfl⟩ := Nat.exists_eq_add_of_lt hc
        rw [Nat.zero_add, Nat.add_sub_cancel] at h
        rw [Nat.zero_add, Nat.mul_add, Nat.mul_one]
        omega
  · rintro (rfl | h) i hi
    · exact absurd hi (Nat.not_lt_zero i)
    · right
      have hm : size * (i + 1) ≤ size * count := Nat.mul_le_mul_left size hi
      rw [Nat.mul_add, Nat.mul_one] at hm
      omega

theorem fetched_cases (d : List UInt8) : (rd d ∧ fetched d = datalen d) ∨ (¬rd d ∧ fetched d = 0) := by
  by_cases hr : rd d
  · exact .inl ⟨hr, if_pos hr⟩
  · exact .inr ⟨hr, if_neg hr⟩

theorem mem_optional {c : Prop} [Decidable c] {l : List Access} {n : ℕ} :
    (∀ a ∈ (if c then l else []), a.InBounds n) ↔ (c → ∀ a ∈ l, a.InBounds n) := by
  by_cases hc : c <;> simp [hc]

theorem sched_in_bounds (dev : AdminDev) (teid n : ℕ) :
    (4 + 4 ≤ n ∧ ((staticElem teid).isSome → 4 ≤ n ∧ 8 + 1 ≤ n) ∧
      (((staticElem teid).isNone ∨ fallsThrough teid) ∧ (dev.schedNodes teid).isSome → 24 ≤ n)) ↔
      schedUse dev teid ≤ n := by
  unfold schedUse
  cases staticElem teid <;> cases fallsThrough teid <;> cases dev.schedNodes teid <;> simp <;> omega

theorem rule_in_bounds (r : RuleElem) (n : ℕ) :
    (16 ≤ n ∧ (r.type ≤ 1 ∧ r.actionType = 1 → r.hdrLen = 0 ∨ 16 + r.hdrLen ≤ n) ∧
      (r.Supported → 16 + recipe1.length ≤ n)) ↔ ruleUse r ≤ n := by
  have hs : r.Supported → r.type ≤ 1 ∧ r.actionType = 1 ∧ r.hdrLen = recipe1.length := by
    rintro ⟨h1, h2, -, h4⟩
    exact ⟨by omega, h2, h4⟩
  unfold ruleUse
  by_cases hq : r.type ≤ 1 ∧ r.actionType = 1
  · rw [if_pos hq]
    constructor
    · rintro ⟨h1, h2, -⟩
      rcases h2 hq with h2 | h2 <;> omega
    · intro h
      refine ⟨by omega, fun _ => .inr h, fun hsup => ?_⟩
      rw [← (hs hsup).2.2]
      exact h
  · rw [if_neg hq]
    constructor
    · intro h
      exact h.1
    · intro h
      exact ⟨h, fun hc => absurd hc hq, fun hsup => absurd ⟨(hs hsup).1, (hs hsup).2.1⟩ hq⟩

theorem storedReads_in (dev : AdminDev) (kept : ℕ → Bool) (p : Slot) (teid n : ℕ) :
    (∀ a ∈ storedReads dev kept p teid, a.InBounds n) ↔
      ((dev.schedNodes teid).isSome → 24 ≤ n) ∧
        ∀ q off, dev.schedNodes teid = some (q, off) → kept teid ∧ q = p ∧ off + 24 ≤ n := by
  unfold storedReads
  cases hn : dev.schedNodes teid with
  | none => simp
  | some node =>
    obtain ⟨q, off⟩ := node
    dsimp only
    rw [List.forall_mem_cons, List.forall_mem_singleton, bytes_in]
    constructor
    · rintro ⟨h1, h2⟩
      refine ⟨fun _ => by omega, fun q' off' he => ?_⟩
      cases he
      split at h1
      · rename_i hq
        rcases h1 with h1 | h1
        · cases h1
        · exact ⟨hq.1, hq.2, h1⟩
      · rcases h1 with h1 | h1
        · cases h1
        · exact absurd (show off + 24 ≤ 0 from h1) (by omega)
    · rintro ⟨h1, h2⟩
      obtain ⟨hk, hq, hb⟩ := h2 q off rfl
      refine ⟨?_, .inr (h1 rfl)⟩
      rw [if_pos ⟨hk, hq⟩]
      exact .inr hb

section Accesses

variable (dev : AdminDev) (kept : ℕ → Bool) (p : Slot) {d : List UInt8} (data : List UInt8)

theorem echo_accesses (hu : usage (opcode d) = .echo) :
    (∀ a ∈ accesses dev kept p d data, a.InBounds (fetched d)) ↔ Enough dev kept p d data := by
  unfold accesses Enough
  rw [hu]
  dsimp only
  rw [List.forall_mem_singleton, bytes_in]
  rcases fetched_cases d with ⟨hr, hf⟩ | ⟨hr, hf⟩ <;> simp [hr, hf]

theorem allocRes_accesses (hu : usage (opcode d) = .allocRes) :
    (∀ a ∈ accesses dev kept p d data, a.InBounds (fetched d)) ↔ Enough dev kept p d data := by
  unfold accesses Enough
  rw [hu]
  dsimp only
  rw [List.forall_mem_append, List.forall_mem_cons, List.forall_mem_singleton, elems_in (by decide), bytes_in, bytes_in]
  rcases fetched_cases d with ⟨hr, hf⟩ | ⟨hr, hf⟩ <;> simp only [hr, hf, true_and, false_and, iff_false] <;> omega

theorem getRecipe_accesses (hu : usage (opcode d) = .getRecipe) :
    (∀ a ∈ accesses dev kept p d data, a.InBounds (fetched d)) ↔ Enough dev kept p d data := by
  unfold accesses Enough
  rw [hu]
  dsimp only
  rw [List.forall_mem_singleton, bytes_in]
  rcases fetched_cases d with ⟨hr, hf⟩ | ⟨hr, hf⟩ <;> simp [hr, hf]

theorem removeSwRules_accesses (hu : usage (opcode d) = .removeSwRules) :
    (∀ a ∈ accesses dev kept p d data, a.InBounds (fetched d)) ↔ Enough dev kept p d data := by
  unfold accesses Enough
  rw [hu]
  dsimp only
  rw [List.forall_mem_append, List.forall_mem_cons, List.forall_mem_singleton, mem_optional, List.forall_mem_singleton,
    bytes_in, bytes_in, bytes_in]
  rcases fetched_cases d with ⟨hr, hf⟩ | ⟨hr, hf⟩
  · simp only [hr, hf, true_and]
    split <;> omega
  · simp only [hr, hf, false_and, iff_false]
    omega

theorem getSchedElems_accesses (hu : usage (opcode d) = .getSchedElems) :
    (∀ a ∈ accesses dev kept p d data, a.InBounds (fetched d)) ↔ Enough dev kept p d data := by
  unfold accesses Enough
  rw [hu]
  dsimp only
  have hs := sched_in_bounds dev (get32 data 4) (fetched d)
  have ho := storedReads_in dev kept p (get32 data 4) (fetched d)
  rw [List.forall_mem_append, List.forall_mem_append, List.forall_mem_cons, mem_optional, mem_optional, mem_optional,
    List.forall_mem_cons, List.forall_mem_singleton, List.forall_mem_singleton, bytes_in, bytes_in, bytes_in, bytes_in, ho]
  rcases fetched_cases d with ⟨hr, hf⟩ | ⟨hr, hf⟩
  · rw [hf] at hs ⊢
    simp only [hr, true_and, ← hs]
    constructor
    · rintro ⟨⟨⟨h1, h2⟩, h3⟩, -⟩
      refine ⟨⟨by omega, fun h => ?_, fun h => (h3 h.1).1 h.2⟩, fun h => (h3 h).2⟩
      have := h2 h
      omega
    · rintro ⟨⟨h1, h2, h3⟩, h4⟩
      refine ⟨⟨⟨.inr h1, fun h => ?_⟩, fun h => ⟨fun hn => h3 ⟨h, hn⟩, h4 h⟩⟩, fun h => .inr (by omega)⟩
      have := h2 h
      omega
  · simp only [hr, hf, false_and, iff_false]
    rintro ⟨⟨⟨h1, -⟩, -⟩, -⟩
    omega

theorem addSchedElems_accesses (hu : usage (opcode d) = .addSchedElems) :
    (∀ a ∈ accesses dev kept p d data, a.InBounds (fetched d)) ↔ Enough dev kept p d data := by
  unfold accesses Enough
  rw [hu]
  dsimp only
  rw [List.forall_mem_append, List.forall_mem_cons, List.forall_mem_singleton, elems_in (by decide), bytes_in, bytes_in]
  rcases fetched_cases d with ⟨hr, hf⟩ | ⟨hr, hf⟩ <;> simp only [hr, hf, true_and, false_and, iff_false] <;> omega

theorem addTxqs_accesses (hu : usage (opcode d) = .addTxqs) :
    (∀ a ∈ accesses dev kept p d data, a.InBounds (fetched d)) ↔ Enough dev kept p d data := by
  unfold accesses Enough
  rw [hu]
  simp only [List.forall_mem_cons, List.not_mem_nil, false_implies, implies_true, and_true, Access.InBounds,
    Area.size, numQueues]
  rcases fetched_cases d with ⟨hr, hf⟩ | ⟨hr, hf⟩ <;>
    simp only [hr, hf, true_and, false_and, iff_false, bytes] <;> omega

theorem disTxqs_accesses (hu : usage (opcode d) = .disTxqs) :
    (∀ a ∈ accesses dev kept p d data, a.InBounds (fetched d)) ↔ Enough dev kept p d data := by
  unfold accesses Enough
  rw [hu]
  dsimp only
  rw [List.forall_mem_cons, List.forall_mem_singleton, bytes_in, bytes_in]
  rcases fetched_cases d with ⟨hr, hf⟩ | ⟨hr, hf⟩ <;> simp only [hr, hf, true_and, false_and, iff_false] <;> omega

theorem addSwRules_accesses (hu : usage (opcode d) = .addSwRules) :
    (∀ a ∈ accesses dev kept p d data, a.InBounds (fetched d)) ↔ Enough dev kept p d data := by
  unfold accesses Enough
  rw [hu]
  dsimp only
  have hs := rule_in_bounds (ruleElem data) (fetched d)
  rw [List.forall_mem_append, List.forall_mem_append, List.forall_mem_cons, List.forall_mem_singleton, mem_optional,
    mem_optional, List.forall_mem_singleton, List.forall_mem_singleton, bytes_in, bytes_in, bytes_in, bytes_in,
    and_assoc, and_assoc]
  rcases fetched_cases d with ⟨hr, hf⟩ | ⟨hr, hf⟩
  · rw [hf] at hs ⊢
    simp only [hr, true_and, ← hs]
    constructor
    · rintro ⟨h1, h2, h3, -⟩
      refine ⟨by omega, h2, fun h => ?_⟩
      rcases h3 h with h3 | h3
      · cases h3
      · exact h3
    · rintro ⟨h1, h2, h3⟩
      exact ⟨by omega, h2, fun h => .inr (h3 h), by omega⟩
  · simp only [hr, hf, false_and, iff_false]
    rintro ⟨h1, -⟩
    omega

theorem accesses_in_bounds :
    (∀ a ∈ accesses dev kept p d data, a.InBounds (fetched d)) ↔ Enough dev kept p d data := by
  cases hu : usage (opcode d) with
  | unused => simp [accesses, Enough, hu]
  | echo => exact echo_accesses dev kept p data hu
  | allocRes => exact allocRes_accesses dev kept p data hu
  | getRecipe => exact getRecipe_accesses dev kept p data hu
  | removeSwRules => exact removeSwRules_accesses dev kept p data hu
  | getSchedElems => exact getSchedElems_accesses dev kept p data hu
  | addSchedElems => exact addSchedElems_accesses dev kept p data hu
  | addTxqs => exact addTxqs_accesses dev kept p data hu
  | disTxqs => exact disTxqs_accesses dev kept p data hu
  | addSwRules => exact addSwRules_accesses dev kept p data hu

end Accesses

/-- Whatever its flags and its length, a command is out of bounds when the node it asks for was added through another
context. -/
theorem foreign_node_outOfBounds {dev : AdminDev} {kept : ℕ → Bool} {p q : Slot} {d data : List UInt8} {off : ℕ}
    (hu : usage (opcode d) = .getSchedElems) (hs : staticElem (get32 data 4) = none)
    (hn : dev.schedNodes (get32 data 4) = some (q, off)) (hq : q ≠ p) :
    ¬∀ a ∈ accesses dev kept p d data, a.InBounds (fetched d) := by
  rw [getSchedElems_accesses dev kept p data hu]
  unfold Enough
  rw [hu]
  rintro ⟨-, -, ho⟩
  exact hq (ho (.inl (by rw [hs]; rfl)) q off hn).2.1

theorem replyData_in {desc data : List UInt8} {dev : AdminDev} {calls : List Output} {f : Fault}
    (h : datalen desc ≤ data.length) : replyData desc data dev calls ≠ .error f := by
  rw [replyData, need_ok h]
  rintro ⟨⟩

theorem put_length {data : List UInt8} {off n v : ℕ} (h : off + n ≤ data.length) :
    (overwrite data off (leBytes n v)).length = data.length :=
  overwrite_length (by rw [leBytes_length]; exact h)

theorem allocRes_in {resType n i : ℕ} {data : List UInt8} (h : n = 0 ∨ 4 + 2 * (i + n) ≤ data.length) :
    ∃ data', allocRes resType n i data = .ok data' ∧ data'.length = data.length := by
  induction n generalizing i data with
  | zero => exact ⟨data, rfl, rfl⟩
  | succ n ih =>
    have hlen : (if resType % 0x80 ∈ knownResTypes then put16 (4 + 2 * i) i data else data).length = data.length := by
      split
      · exact put_length (by omega)
      · rfl
    rw [allocRes, need_ok (by omega)]
    obtain ⟨data', h1, h2⟩ := @ih (i + 1)
      (if resType % 0x80 ∈ knownResTypes then put16 (4 + 2 * i) i data else data) (by rw [hlen]; omega)
    exact ⟨data', h1, h2.trans hlen⟩

theorem addSchedElems_in {p : Slot} {n i : ℕ} {data : List UInt8} {dev : AdminDev}
    (h : 8 + 24 * (i + n) ≤ data.length) :
    ∃ r, addSchedElems p n i data dev = .ok r ∧ r.1.length = data.length := by
  induction n generalizing i data dev with
  | zero => exact ⟨(data, dev), rfl, rfl⟩
  | succ n ih =>
    have hlen : (put32 (8 + 24 * i + 4) dev.lastReturnedNode data).length = data.length := put_length (by omega)
    rw [addSchedElems, need_ok (by omega)]
    obtain ⟨r, h1, h2⟩ := @ih (i + 1) (put32 (8 + 24 * i + 4) dev.lastReturnedNode data)
      { dev with
        schedNodes := Function.update dev.schedNodes dev.lastReturnedNode (some (p, 8 + 24 * i))
        lastReturnedNode := dev.lastReturnedNode + 1 } (by rw [hlen]; omega)
    exact ⟨r, h1, h2.trans hlen⟩

theorem staticElem_length {data : List UInt8} {teid : ℕ} (h : (staticElem teid).isSome → 9 ≤ data.length) :
    (match staticElem teid with
      | some (parent, type) => put8 8 type (put32 0 parent data)
      | none => data).length = data.length := by
  cases hs : staticElem teid with
  | none => rfl
  | some e =>
    have h9 := h (by rw [hs]; rfl)
    have hput : (put32 0 e.1 data).length = data.length := put_length (by omega)
    exact (put_length (by rw [hput]; omega)).trans hput

theorem getSchedElem_in {dev : AdminDev} {kept : ℕ → Bool} {ctxs : Slot → DescCtx} {p : Slot}
    (h : schedUse dev (get32 (ctxs p).data 4) ≤ (ctxs p).data.length)
    (ho : OwnNode dev kept p (get32 (ctxs p).data 4) (ctxs p).data.length) :
    ∃ data', getSchedElem dev ctxs (ctxs p).data = .ok data' ∧ data'.length = (ctxs p).data.length := by
  rw [← sched_in_bounds] at h
  obtain ⟨h1, h2, h3⟩ := h
  have hlen := staticElem_length fun hs => (h2 hs).2
  unfold getSchedElem
  dsimp only
  split
  · exact ⟨_, rfl, hlen⟩
  · rename_i hfall
    have hread : (staticElem (get32 (ctxs p).data 4)).isNone ∨ fallsThrough (get32 (ctxs p).data 4) := by
      cases hs : staticElem (get32 (ctxs p).data 4) <;> simp_all
    cases hn : dev.schedNodes (get32 (ctxs p).data 4) with
    | none => exact ⟨_, rfl, hlen⟩
    | some node =>
      obtain ⟨q, off⟩ := node
      obtain ⟨-, rfl, hnode⟩ := ho hread q off hn
      have h24 : 24 ≤ (ctxs q).data.length := h3 ⟨hread, by rw [hn]; rfl⟩
      have hslice : (slice (ctxs q).data off 24).length = 24 := slice_length hnode
      dsimp only
      rw [need_ok hnode]
      refine ⟨_, rfl, (overwrite_length ?_).trans hlen⟩
      rw [hslice]
      exact (show 0 + 24 ≤ (ctxs q).data.length by omega).trans hlen.ge

theorem datalen_put {d : List UInt8} {off n v : ℕ} (hd : d.length = 32) (ho : 6 ≤ off) (hn : off + n ≤ 32) :
    datalen (overwrite d off (leBytes n v)) = datalen d := by
  unfold datalen get16
  congr 1
  refine slice_congr fun k _ hk => getElem?_overwrite ?_ (.inl (by omega))
  rw [leBytes_length]
  omega

theorem opcode_of_usage (op : ℕ) : match usage op with
    | .unused => True
    | .echo => op = 0x0B02 ∨ op = 0x0B03 ∨ op = 0x040F ∨ op = 0x0C40
    | .allocRes => op = 0x0208
    | .getRecipe => op = 0x0292
    | .removeSwRules => op = 0x02A2
    | .getSchedElems => op = 0x0404
    | .addSchedElems => op = 0x0401
    | .addTxqs => op = 0x0C30
    | .disTxqs => op = 0x0C31
    | .addSwRules => op = 0x02A0 := by
  split
  all_goals
    rename_i hu
    unfold usage at hu
    split at hu <;> simp_all

section Handled

variable {env : AdminEnv} {dev : AdminDev} {kept : ℕ → Bool} {ctxs : Slot → DescCtx} {p : Slot}

theorem unused_handled (hu : usage (opcode (ctxs p).desc) = .unused) : handle env dev ctxs p ≠ .error .outOfBounds := by
  unfold handle
  dsimp only
  split
  all_goals rename_i hop
  all_goals try with_reducible exact Except.ok_ne_error _ _
  all_goals try (rw [hop] at hu; cases hu)
  · split <;> exact Except.ok_ne_error _ _
  · split <;> exact Except.ok_ne_error _ _

theorem echo_handled (hd : (ctxs p).desc.length = 32) (hu : usage (opcode (ctxs p).desc) = .echo)
    (hlen : datalen (ctxs p).desc ≤ (ctxs p).data.length) : handle env dev ctxs p ≠ .error .outOfBounds := by
  have huse := opcode_of_usage (opcode (ctxs p).desc)
  rw [hu] at huse
  unfold handle
  dsimp only
  rcases huse with hop | hop | hop | hop
  all_goals rw [hop]
  all_goals refine replyData_in ?_
  · exact hlen
  · exact hlen
  · rw [put16, datalen_put hd (by decide) (by decide)]
    exact hlen
  · have hput : (put32 params 0 (ctxs p).desc).length = 32 := (put_length (by rw [hd]; decide)).trans hd
    rw [put32, datalen_put hput (by decide) (by decide), put32, datalen_put hd (by decide) (by decide)]
    exact hlen

theorem allocRes_handled (hop : opcode (ctxs p).desc = 0x0208) (hlen : datalen (ctxs p).desc ≤ (ctxs p).data.length)
    (h2 : 2 ≤ datalen (ctxs p).desc)
    (hn : get16 (ctxs p).desc params = 0 ∨ 4 + 2 * get16 (ctxs p).desc params ≤ datalen (ctxs p).desc) :
    handle env dev ctxs p ≠ .error .outOfBounds := by
  obtain ⟨data, h1, hl⟩ := @allocRes_in (get16 (ctxs p).data 0) (get16 (ctxs p).desc params) 0 (ctxs p).data (by omega)
  unfold handle
  dsimp only
  rw [hop]
  rw [need_ok (by omega)]
  change (allocRes _ _ _ _ >>= fun data => replyData _ data _ _) ≠ _
  rw [h1]
  exact replyData_in (by omega)

theorem removeSwRules_handled (hop : opcode (ctxs p).desc = 0x02A2) (hlen : datalen (ctxs p).desc ≤ (ctxs p).data.length)
    (hn : (if get16 (ctxs p).data 0 ≤ 1 then 14 else 2) ≤ datalen (ctxs p).desc) :
    handle env dev ctxs p ≠ .error .outOfBounds := by
  have hput : (if get16 (ctxs p).data 0 ≤ 1 then put16 12 0 (ctxs p).data else (ctxs p).data).length =
      (ctxs p).data.length := by
    split at hn
    · rw [if_pos ‹_›]
      exact put_length (by omega)
    · rw [if_neg ‹_›]
  unfold handle
  dsimp only
  rw [hop]
  rw [need_ok (hn.trans hlen)]
  change (need _ _ >>= fun _ => Except.ok _) ≠ _
  rw [need_ok (by rw [hput]; omega)]
  exact Except.ok_ne_error _ _

theorem getSchedElems_handled (hop : opcode (ctxs p).desc = 0x0404) (hlen : datalen (ctxs p).desc ≤ (ctxs p).data.length)
    (hn : schedUse dev (get32 (ctxs p).data 4) ≤ datalen (ctxs p).desc)
    (ho : OwnNode dev kept p (get32 (ctxs p).data 4) (datalen (ctxs p).desc)) :
    handle env dev ctxs p ≠ .error .outOfBounds := by
  have ho' : OwnNode dev kept p (get32 (ctxs p).data 4) (ctxs p).data.length := by
    intro hread q off hq
    obtain ⟨hk, hqp, hoff⟩ := ho hread q off hq
    exact ⟨hk, hqp, hoff.trans hlen⟩
  obtain ⟨data, h1, hl⟩ := getSchedElem_in (hn.trans hlen) ho'
  unfold handle
  dsimp only
  rw [hop]
  rw [need_ok (hn.trans hlen)]
  change (getSchedElem _ _ _ >>= fun data => (need _ data >>= fun _ => Except.ok _)) ≠ _
  rw [h1]
  change (need _ data >>= fun _ => Except.ok _) ≠ _
  rw [need_ok (by rw [hl]; split <;> omega)]
  exact Except.ok_ne_error _ _

theorem addSchedElems_handled (hd : (ctxs p).desc.length = 32) (hop : opcode (ctxs p).desc = 0x0401)
    (hlen : datalen (ctxs p).desc ≤ (ctxs p).data.length)
    (hn : 8 + 24 * get16 (ctxs p).data 4 ≤ datalen (ctxs p).desc) : handle env dev ctxs p ≠ .error .outOfBounds := by
  obtain ⟨r, h1, hl⟩ := @addSchedElems_in p (get16 (ctxs p).data 4) 0 (ctxs p).data dev (by omega)
  unfold handle
  dsimp only
  rw [hop]
  change (need 8 _ >>= fun _ => addSchedElems _ _ _ _ _ >>= fun r => replyData _ r.1 r.2 _) ≠ _
  rw [need_ok (by omega)]
  change (addSchedElems _ _ _ _ _ >>= fun r => replyData _ r.1 r.2 _) ≠ _
  rw [h1]
  refine replyData_in ?_
  rw [put16, datalen_put hd (by decide) (by decide)]
  omega

theorem addTxqs_handled (hop : opcode (ctxs p).desc = 0x0C30) (hn : 56 ≤ (ctxs p).data.length)
    (hq : get16 (ctxs p).data 8 < numQueues) : handle env dev ctxs p ≠ .error .outOfBounds := by
  unfold handle
  dsimp only
  rw [hop]
  rw [need_ok hn]
  change (if numQueues ≤ get16 (ctxs p).data 8 then Except.error _ else Except.ok _) ≠ _
  rw [if_neg (by omega)]
  exact Except.ok_ne_error _ _

theorem addSwRules_handled (hop : opcode (ctxs p).desc = 0x02A0) (hlen : datalen (ctxs p).desc ≤ (ctxs p).data.length)
    (hn : ruleUse (ruleElem (ctxs p).data) ≤ datalen (ctxs p).desc) : handle env dev ctxs p ≠ .error .outOfBounds := by
  have h16 : 16 ≤ (ctxs p).data.length := by
    unfold ruleUse at hn
    omega
  have h0 : (put16 0 1 (ctxs p).data).length = (ctxs p).data.length := put_length (by omega)
  have h6 : (put16 6 1 (put16 0 1 (ctxs p).data)).length = (ctxs p).data.length := (put_length (by omega)).trans h0
  unfold handle
  dsimp only
  rw [hop]
  rw [addSwRules, need_ok (hn.trans hlen)]
  refine replyData_in ?_
  rw [put16, put_length (by omega), h6]
  exact hlen

/-- A command with enough bytes does not run over its buffer or the tables. -/
theorem handle_in_bounds (hd : (ctxs p).desc.length = 32) (hf : fetched (ctxs p).desc ≤ (ctxs p).data.length)
    (h : Enough dev kept p (ctxs p).desc (ctxs p).data) : handle env dev ctxs p ≠ .error .outOfBounds := by
  have hrd : rd (ctxs p).desc → datalen (ctxs p).desc ≤ (ctxs p).data.length := by
    intro hr
    rw [fetched, if_pos hr] at hf
    exact hf
  have hecho : rd (ctxs p).desc ∨ datalen (ctxs p).desc = 0 → datalen (ctxs p).desc ≤ (ctxs p).data.length := by
    rintro (hr | hz)
    · exact hrd hr
    · omega
  have huse := opcode_of_usage (opcode (ctxs p).desc)
  unfold Enough at h
  cases hu : usage (opcode (ctxs p).desc) with
  | unused => exact unused_handled hu
  | echo =>
    rw [hu] at h
    exact echo_handled hd hu (hecho h)
  | allocRes =>
    rw [hu] at h huse
    exact allocRes_handled huse (hrd h.1) h.2.1 h.2.2
  | getRecipe =>
    rw [hu] at h huse
    unfold handle
    dsimp only
    rw [huse, need_ok (h.2.trans (hrd h.1))]
    exact Except.ok_ne_error _ _
  | removeSwRules =>
    rw [hu] at h huse
    exact removeSwRules_handled huse (hrd h.1) h.2
  | getSchedElems =>
    rw [hu] at h huse
    exact getSchedElems_handled huse (hrd h.1) h.2.1 h.2.2
  | addSchedElems =>
    rw [hu] at h huse
    exact addSchedElems_handled hd huse (hrd h.1) h.2
  | addTxqs =>
    rw [hu] at h huse
    exact addTxqs_handled huse (h.2.1.trans (hrd h.1)) h.2.2
  | disTxqs =>
    rw [hu] at h huse
    have hn := h.2.trans (hrd h.1)
    unfold handle
    dsimp only
    rw [huse, need_ok hn]
    refine replyData_in ?_
    rw [put8, put_length (by omega)]
    exact hrd h.1
  | addSwRules =>
    rw [hu] at h huse
    exact addSwRules_handled huse (hrd h.1) h.2

end Handled

/-- All accesses are valid exactly for commands that bring enough bytes along; the model of `process`
then reaches none of its bounds checks. -/
theorem admin_commands_in_bounds (dev : AdminDev) (kept : ℕ → Bool) (p : Slot) :
    (∀ d data, (∀ a ∈ accesses dev kept p d data, a.InBounds (fetched d)) ↔ Enough dev kept p d data) ∧
      ∀ env ctxs, (ctxs p).desc.length = 32 → fetched (ctxs p).desc ≤ (ctxs p).data.length →
        Enough dev kept p (ctxs p).desc (ctxs p).data → handle env dev ctxs p ≠ .error .outOfBounds :=
  ⟨fun _ data => accesses_in_bounds dev kept p data, fun _ _ hd hf h => handle_in_bounds hd hf h⟩

/-- `set_rss_key` with a buffer of four bytes. -/
def rssKey (flags : UInt8) : List UInt8 := [0x00, flags, 0x02, 0x0B, 4] ++ List.replicate 27 0

def rssKeyCtx : DescCtx := ⟨.processing, 0, rssKey 0x14, [1, 2, 3, 4]⟩

theorem admin_commands_in_bounds_rssKey :
    Enough freshDev (fun _ => true) 0 (rssKey 0x14) [1, 2, 3, 4] ∧
      (∀ a ∈ accesses freshDev (fun _ => true) 0 (rssKey 0x14) [1, 2, 3, 4], a.InBounds (fetched (rssKey 0x14))) ∧
      handle ⟨0, fun _ => 0⟩ freshDev (fun _ => rssKeyCtx) 0 ≠ .error .outOfBounds := by
  have he : Enough freshDev (fun _ => true) 0 (rssKey 0x14) [1, 2, 3, 4] := .inl (by decide)
  refine ⟨he, ((admin_commands_in_bounds freshDev (fun _ => true) 0).1 _ _).mpr he, ?_⟩
  exact (admin_commands_in_bounds freshDev (fun _ => true) 0).2 _ _ rfl (by decide) he

/-- Without the RD flag nothing is fetched, but four bytes of the buffer are sent back. -/
theorem stale_buffer_sent :
    ∃ a ∈ accesses freshDev (fun _ => true) 0 (rssKey 0x10) [], ¬a.InBounds (fetched (rssKey 0x10)) :=
  ⟨bytes 0 4, by decide, by rw [bytes_in]; decide⟩

end Vmux.AdminBounds
