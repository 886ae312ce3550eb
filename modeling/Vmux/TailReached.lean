import Vmux.QueueIdle
import Vmux.DescriptorOrder

namespace Vmux.TailReached

open Bytes CircularWindow Transitions DescriptorQueue Ownership

/-- The tail has wrapped below the next index, and that far beyond the tail the remainder of `2^32` leads. -/
def Short (len next tail : ℕ) : Prop :=
  tail < next ∧ next ≤ tail + 0x100000000 % len ∧ tail + 0x100000000 % len < len

section

variable {q : QueueBase}

theorem descAvail_of_le (hl : q.len < 0x4000) (ht : q.regTail < q.len) (hle : q.nextIdx ≤ q.regTail) :
    q.descAvail = q.regTail - q.nextIdx := by
  unfold QueueBase.descAvail sub32
  have hsub : (q.regTail + 0x100000000 - q.nextIdx) % 0x100000000 = q.regTail - q.nextIdx := by omega
  rw [hsub]
  exact Nat.mod_eq_of_lt (by omega)

theorem descAvail_of_lt (hl : q.len < 0x4000) (ht : q.regTail < q.len) (hlt : q.regTail < q.nextIdx) :
    q.descAvail = if q.nextIdx ≤ q.regTail + 0x100000000 % q.len then q.regTail + 0x100000000 % q.len - q.nextIdx
      else q.regTail + 0x100000000 % q.len + q.len - q.nextIdx := by
  have hn : q.nextIdx < q.len := Nat.mod_lt _ (by omega)
  have hrem := Nat.mod_lt 0x100000000 (show 0 < q.len by omega)
  have hdiv := Nat.div_add_mod 0x100000000 q.len
  have hsub : sub32 q.regTail q.nextIdx = q.regTail + 0x100000000 - q.nextIdx := by
    unfold sub32
    omega
  unfold QueueBase.descAvail
  rw [hsub]
  split
  · have heq : q.regTail + 0x100000000 - q.nextIdx =
        q.regTail + 0x100000000 % q.len - q.nextIdx + q.len * (0x100000000 / q.len) := by omega
    rw [heq, Nat.add_mul_mod_self_left, Nat.mod_eq_of_lt (by omega)]
  · have hpos : 0 < 0x100000000 / q.len := Nat.div_pos (by omega) (by omega)
    have hmul : q.len * (0x100000000 / q.len) = q.len + q.len * (0x100000000 / q.len - 1) := by
      obtain ⟨m, hm⟩ : ∃ m, 0x100000000 / q.len = m + 1 := Nat.exists_eq_succ_of_ne_zero hpos.ne'
      rw [hm, Nat.mul_succ, Nat.add_sub_cancel, Nat.add_comm]
    have heq : q.regTail + 0x100000000 - q.nextIdx =
        q.regTail + 0x100000000 % q.len + q.len - q.nextIdx + q.len * (0x100000000 / q.len - 1) := by omega
    rw [heq, Nat.add_mul_mod_self_left, Nat.mod_eq_of_lt (by omega)]

/-- What `trigger_fetch` computes is what was posted, unless the tail has wrapped and `2^32` is no multiple of the length. -/
theorem descAvail_eq_iff (hl : q.len < 0x4000) (ht : q.regTail < q.len) :
    (q.descAvail : ℤ) = ((q.regTail : ℤ) - q.nextIdx) % q.len ↔ q.nextIdx ≤ q.regTail ∨ q.len ∣ 0x100000000 := by
  have hn : q.nextIdx < q.len := Nat.mod_lt _ (by omega)
  have hrem := Nat.mod_lt 0x100000000 (show 0 < q.len by omega)
  rw [Nat.dvd_iff_mod_eq_zero]
  by_cases hle : q.nextIdx ≤ q.regTail
  · have hmod : ((q.regTail : ℤ) - q.nextIdx) % q.len = (q.regTail : ℤ) - q.nextIdx :=
      Int.emod_eq_of_lt (by omega) (by omega)
    rw [descAvail_of_le hl ht hle, hmod]
    simp only [hle, true_or, iff_true]
    omega
  · have hmod : ((q.regTail : ℤ) - q.nextIdx) % q.len = (q.regTail : ℤ) - q.nextIdx + q.len := by
      rw [← Int.add_emod_right]
      exact Int.emod_eq_of_lt (by omega) (by omega)
    rw [descAvail_of_lt hl ht (by omega), hmod]
    split <;> omega

theorem short_fetch (hl : q.len < 0x4000) (ht : q.regTail < q.len) :
    Short q.len ((q.nextIdx + q.fetchCnt) % q.len) q.regTail ↔ Short q.len q.nextIdx q.regTail := by
  have hn : q.nextIdx < q.len := Nat.mod_lt _ (by omega)
  have hrem := Nat.mod_lt 0x100000000 (show 0 < q.len by omega)
  obtain ⟨havail, -, hend⟩ := fetchCnt_bounds q (by omega)
  have hwrap : (q.nextIdx + q.fetchCnt) % q.len = if q.nextIdx + q.fetchCnt = q.len then 0 else q.nextIdx + q.fetchCnt := by
    split
    · rename_i heq
      rw [heq, Nat.mod_self]
    · exact Nat.mod_eq_of_lt (by omega)
  unfold Short
  rw [hwrap]
  by_cases hle : q.nextIdx ≤ q.regTail
  · rw [descAvail_of_le hl ht hle] at havail
    split <;> omega
  · rw [descAvail_of_lt hl ht (by omega)] at havail
    split at havail <;> split <;> omega

theorem fetchCnt_eq_zero (hpos : 0 < q.len) (hcnt : q.activeCnt ≤ maxActiveDescs) (hf : q.fetchCnt = 0) :
    q.descAvail = 0 ∨ q.activeCnt = maxActiveDescs := by
  have hn : q.nextIdx < q.len := Nat.mod_lt _ hpos
  have hcap : ¬maxActiveCapacity ≤ q.activeCnt := by
    simp only [maxActiveCapacity, maxActiveDescs] at hcnt ⊢
    omega
  unfold QueueBase.fetchCnt at hf
  dsimp only at hf
  rw [if_neg hcap] at hf
  have hzero : min (min q.descAvail (maxActiveDescs - q.activeCnt)) maxFetchCapacity = 0 := by
    split at hf <;> omega
  unfold maxFetchCapacity at hzero
  omega

/-- With nothing left to fetch, the tail has been reached, or the count has fallen short of it. -/
theorem nextIdx_at_rest (hl : q.len < 0x4000) (ht : q.regTail < q.len) (ha : q.descAvail = 0) :
    q.nextIdx = q.regTail ∨ Short q.len q.nextIdx q.regTail := by
  have hn : q.nextIdx < q.len := Nat.mod_lt _ (by omega)
  have hrem := Nat.mod_lt 0x100000000 (show 0 < q.len by omega)
  unfold Short
  by_cases hle : q.nextIdx ≤ q.regTail
  · rw [descAvail_of_le hl ht hle] at ha
    omega
  · rw [descAvail_of_lt hl ht (by omega)] at ha
    split at ha <;> omega

end

section

variable {ε ι σ κ : Type}

def Runs (S : Subclass ε ι σ κ) (c c' : Config σ κ) : Prop :=
  ∃ (env : Env ε) (cmd : Cmd κ) (rest : List (Cmd κ)), c.stack = cmd :: rest ∧
    exec S env { c with stack := rest } cmd = .ok c'

variable {S : Subclass ε ι σ κ} {base len : ℕ} {c c' : Config σ κ}

theorem Runs.queueStep (h : Runs S c c') : QueueStep S c c' := by
  obtain ⟨env, cmd, rest, hs, he⟩ := h
  exact .exec env cmd rest hs he

theorem Runs.ring (hi : Inv S c) (h : Runs S c c') : c'.q.len = c.q.len ∧ c'.q.regTail = c.q.regTail ∧
    (c'.q.nextIdx = c.q.nextIdx ∨ c'.q.nextIdx = (c.q.nextIdx + c.q.fetchCnt) % c.q.len) := by
  obtain ⟨env, cmd, rest, hs, he⟩ := h
  obtain ⟨-, hr, -⟩ | ⟨-, -, hr, -⟩ | ⟨-, -, hr, -⟩ | ⟨pos, n, rfl, hq, -⟩ :=
    exec_ring (c := { c with stack := rest }) hi.enabled he
  · obtain ⟨-, h2, -, h4, -, -, h7, h8⟩ := Ring.mk.inj hr
    refine ⟨h2, h4, .inl ?_⟩
    simp only [QueueBase.nextIdx, h2, h7, h8]
  · obtain ⟨-, h2, -, h4, -, -, h7, h8⟩ := Ring.mk.inj hr
    refine ⟨h2, h4, .inr ?_⟩
    simp only [QueueBase.nextIdx, h2, h7, h8, Nat.mod_add_mod, Nat.add_assoc]
    rfl
  · obtain ⟨-, h2, -, h4, -, -, h7, h8⟩ := Ring.mk.inj hr
    refine ⟨h2, h4, .inl ?_⟩
    simp only [QueueBase.nextIdx, h2, h7, h8]
  · obtain ⟨rfl, hn⟩ := hi.settled.front pos n rest hs
    have hb := bumpCnt_eq hi.window.cnt_le hn hi.settled.states
    rw [hq]
    refine ⟨rfl, rfl, .inl ?_⟩
    simp only [QueueBase.nextIdx, QueueBase.bump, hb]
    change ((c.q.activeFirstIdx + n) % c.q.len + (c.q.activeCnt - n)) % c.q.len = _
    rw [Nat.mod_add_mod]
    congr 1
    omega

theorem Runs.short_iff (hi : Inv S c) (hlen : c.q.len < 0x4000) (ht : c.q.regTail < c.q.len) (h : Runs S c c') :
    Short c'.q.len c'.q.nextIdx c'.q.regTail ↔ Short c.q.len c.q.nextIdx c.q.regTail := by
  obtain ⟨h1, h2, hn | hn⟩ := h.ring hi
  · rw [h1, h2, hn]
  · rw [h1, h2, hn]
    exact short_fetch hlen ht

theorem runs_short_iff (hc : (machine S base len).Reachable c) (ht : c.q.regTail < c.q.len)
    (h : Relation.ReflTransGen (Runs S) c c') :
    (machine S base len).Reachable c' ∧ c'.q.len = c.q.len ∧ c'.q.regTail = c.q.regTail ∧
      (Short c'.q.len c'.q.nextIdx c'.q.regTail ↔ Short c.q.len c.q.nextIdx c.q.regTail) := by
  induction h with
  | refl => exact ⟨hc, rfl, rfl, Iff.rfl⟩
  | @tail d e _ hstep ih =>
    obtain ⟨hd, hlen, htail, hiff⟩ := ih
    have hi := Inv.reachable hd
    obtain ⟨h1, h2, -⟩ := hstep.ring hi
    have hshort := hstep.short_iff hi hi.len_lt (by omega)
    exact ⟨.step hd hstep.queueStep, h1.trans hlen, h2.trans htail, hshort.trans hiff⟩

theorem cascade_runs {env : Env ε} {n : ℕ} (h : cascade S env n c = .ok c') :
    Relation.ReflTransGen (Runs S) c c' := by
  induction n generalizing c with
  | zero =>
    cases h
    exact .refl
  | succ n ih =>
    rw [cascade] at h
    split at h
    · cases h
      exact .refl
    · rename_i cmd rest hs
      obtain ⟨d, hd, h⟩ := bind_ok h
      exact .head ⟨env, cmd, rest, hs, hd⟩ (ih h)

/-- The states before and after the call that a write of the tail `t`, after those in `ts`, begins. -/
def tailCall (S : Subclass ε ι σ κ) (env : Env ε) (n : ℕ) (ts : List ℕ) (t : ℕ) (c : Config σ κ) :
    Except Fault (Config σ κ × Config σ κ) := do
  let c ← tailWrites S env n ts c
  match c.stack with
  | [] =>
    let c' ← cascade S env n (tailWrite c t)
    return (tailWrite c t, c')
  | _ :: _ => .error .abort

theorem observe_tailCall {env : Env ε} {n t : ℕ} {ts : List ℕ} {α : Type} {f : Config σ κ × Config σ κ → α} {a : α}
    (hc : (machine S base len).Reachable c) (hts : ∀ x ∈ ts, x < 0x100000000) (ht : t < 0x100000000)
    (h : (tailCall S env n ts t c).toOption.map f = some a) :
    ∃ d d', (machine S base len).Reachable d ∧ Relation.ReflTransGen (Runs S) d d' ∧ d.q.regTail = t ∧
      f (d, d') = a := by
  obtain ⟨p, hok, rfl⟩ := ok_of_map h
  obtain ⟨d, hd, hok⟩ := bind_ok hok
  split at hok
  · rename_i hs
    obtain ⟨d', hd', hok⟩ := bind_ok hok
    cases hok
    have hr := Reachable.tailWrites (fun _ _ h => h) hc hts hd
    exact ⟨tailWrite d t, d', .step hr (.tail t ht hs rfl), cascade_runs hd', rfl, rfl⟩
  · cases hok

/-- When a call returns, the posted descriptors have been fetched, or the contexts do not suffice, exactly if the
count did not fall short where the call began. -/
theorem tail_reached_iff (S : Subclass ε ι σ κ) (base len : ℕ) (c c' : Config σ κ)
    (hc : (machine S base len).Reachable c) (ht : c.q.regTail < c.q.len) (h : Relation.ReflTransGen (Runs S) c c')
    (hs : c'.stack = []) :
    (c'.q.nextIdx = c.q.regTail ∨ c'.q.activeCnt = maxActiveDescs ↔
      ¬Short c.q.len c.q.nextIdx c.q.regTail ∨ c'.q.activeCnt = maxActiveDescs) ∧
    ((c.q.descAvail : ℤ) = ((c.q.regTail : ℤ) - c.q.nextIdx) % c.q.len ↔
      c.q.nextIdx ≤ c.q.regTail ∨ c.q.len ∣ 0x100000000) := by
  obtain ⟨hc', hlen, htail, hiff⟩ := runs_short_iff hc ht h
  have hi := Inv.reachable hc'
  refine ⟨?_, descAvail_eq_iff (Inv.reachable hc).len_lt ht⟩
  have hf : c'.q.fetchCnt = 0 := by
    by_contra hn
    obtain ⟨x, hx, -⟩ := Fetching.reachable hc' hn
    rw [hs] at hx
    cases hx
  rw [← hiff, ← htail]
  obtain ha | ha := fetchCnt_eq_zero (by omega) hi.window.cnt_le hf
  · refine or_congr_left' fun _ => ⟨fun heq hshort => ?_, fun hnot => ?_⟩
    · exact absurd heq hshort.1.ne'
    · exact (nextIdx_at_rest hi.len_lt (by omega) ha).resolve_right hnot
  · simp [ha]

end

def quiet : Env LanRx.RxEnv := ⟨fun _ => 0, fun _ _ => true, ⟨fun _ => 0, 0, fun _ => 0⟩⟩

theorem rxRing_reachable : (machine LanRx.subclass 0x1000 3).Reachable DescriptorOrder.rxRing :=
  Reachable.enabled 32 (by norm_num) (by norm_num) rfl

/-- A ring of three slots reaches the tail 2 from its start. -/
theorem tail_reached_two : ∃ c c', (machine LanRx.subclass 0x1000 3).Reachable c ∧
    Relation.ReflTransGen (Runs LanRx.subclass) c c' ∧ c.q.regTail = 2 ∧ c'.stack = [] ∧ c'.q.nextIdx = 2 := by
  have hrun : (tailCall LanRx.subclass quiet 40 [] 2 DescriptorOrder.rxRing).toOption.map
      (fun p => (p.1.q.len, p.1.q.nextIdx, p.2.q.activeCnt, p.2.stack.isEmpty)) =
      some (3, 0, 2, true) := by decide +kernel
  obtain ⟨c, c', hc, hr, ht, hf⟩ := observe_tailCall rxRing_reachable (by simp) (by norm_num) hrun
  obtain ⟨hlen, hn, ha, hs⟩ : c.q.len = 3 ∧ c.q.nextIdx = 0 ∧ c'.q.activeCnt = 2 ∧ c'.stack.isEmpty = true := by
    simpa using hf
  have hs' := List.isEmpty_iff.mp hs
  refine ⟨c, c', hc, hr, ht, hs', ?_⟩
  obtain h | h := (tail_reached_iff LanRx.subclass 0x1000 3 c c' hc (by omega) hr hs').1.mpr
    (.inl fun h => by have := h.1; omega)
  · exact h.trans ht
  · exact absurd h (by simp [ha, maxActiveDescs])

/-- The tail wraps from 1 to 0 in a ring of three slots: slots 1 and 2 are posted, and none is fetched. -/
theorem tail_left_behind : ∃ c c', (machine LanRx.subclass 0x1000 3).Reachable c ∧
    Relation.ReflTransGen (Runs LanRx.subclass) c c' ∧ c.q.regTail = 0 ∧ c.q.len = 3 ∧ c'.stack = [] ∧
    c'.q.nextIdx = 1 ∧ c'.q.activeCnt = 1 ∧ c.q.descAvail = 0 ∧
    ¬(c'.q.nextIdx = c.q.regTail ∨ c'.q.activeCnt = maxActiveDescs) ∧
    ¬(c.q.descAvail : ℤ) = ((c.q.regTail : ℤ) - c.q.nextIdx) % c.q.len := by
  have hrun : (tailCall LanRx.subclass quiet 40 [1] 0 DescriptorOrder.rxRing).toOption.map
      (fun p => (p.1.q.len, p.1.q.nextIdx, p.1.q.descAvail, p.2.q.nextIdx, p.2.q.activeCnt, p.2.stack.isEmpty)) =
      some (3, 1, 0, 1, 1, true) := by decide +kernel
  obtain ⟨c, c', hc, hr, ht, hf⟩ := observe_tailCall rxRing_reachable (by simp) (by norm_num) hrun
  obtain ⟨hlen, hn, hd, hn', ha, hs⟩ : c.q.len = 3 ∧ c.q.nextIdx = 1 ∧ c.q.descAvail = 0 ∧ c'.q.nextIdx = 1 ∧
      c'.q.activeCnt = 1 ∧ c'.stack.isEmpty = true := by simpa using hf
  refine ⟨c, c', hc, hr, ht, hlen, List.isEmpty_iff.mp hs, hn', ha, hd, ?_, ?_⟩
  · simp [hn', ha, ht, maxActiveDescs]
  · rw [hd, ht, hn, hlen]
    decide

end Vmux.TailReached
