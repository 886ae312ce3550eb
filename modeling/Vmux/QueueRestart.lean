import Vmux.RingSteps

namespace Vmux.QueueRestart

open Bytes CircularWindow Transitions DescriptorQueue Ownership

/-- What a queue is given when it is enabled. -/
structure Program where
  base : ℕ
  len : ℕ
  head : ℕ
  descLen : ℕ
deriving DecidableEq, Repr

def Program.addr (P : Program) (idx : ℕ) : ℕ := (P.base + idx * P.descLen) % 0x10000000000000000

def isFetch : Event → Bool
  | .fetch _ _ _ _ => true
  | _ => false

def Takes (p : Slot) : Event → Prop
  | .fetch pos _ cnt _ => offset pos p < cnt
  | _ => False

def Taken (past : List Event) (p : Slot) : Prop := ∃ e ∈ past, Takes p e

/-- An event that only has to do with the present program, after the events `past` under it. -/
def Conforms (P : Program) (past : List Event) : Event → Prop
  | .fetch _ idx cnt addr => addr = P.addr idx ∧ idx + cnt ≤ P.len ∧ ((∀ e ∈ past, isFetch e = false) → idx = P.head)
  | .writeBack pos idx cnt addr _ => addr = P.addr idx ∧ idx + cnt ≤ P.len ∧ ∀ p, offset pos p < cnt → Taken past p
  | .headWriteBack pos idx cnt _ bytes =>
    bytes = leBytes 4 ((idx + cnt) % P.len) ∧ idx + cnt ≤ P.len ∧ ∀ p, offset pos p < cnt → Taken past p
  | .process p _ | .dataRead p _ _ | .dataWrite p _ _ => Taken past p
  | .call _ | .interrupt => True

def Restarts (P : Program) (evs : List Event) : Prop :=
  ∀ past e rest, evs = past ++ e :: rest → Conforms P past e

variable {P : Program} {past evs new old : List Event} {e : Event} {p : Slot}

theorem Taken.append (h : Taken past p) (new : List Event) : Taken (past ++ new) p := by
  obtain ⟨e, he, ht⟩ := h
  exact ⟨e, List.mem_append_left _ he, ht⟩

theorem Conforms.append (h : Conforms P past e) (hf : isFetch e = false) (new : List Event) :
    Conforms P (past ++ new) e := by
  cases e with
  | fetch pos idx cnt addr => cases hf
  | writeBack pos idx cnt addr bytes => exact ⟨h.1, h.2.1, fun p hp => (h.2.2 p hp).append new⟩
  | headWriteBack pos idx cnt addr bytes => exact ⟨h.1, h.2.1, fun p hp => (h.2.2 p hp).append new⟩
  | process p idx => exact Taken.append h new
  | dataRead p addr len => exact Taken.append h new
  | dataWrite p addr bytes => exact Taken.append h new
  | call o => trivial
  | interrupt => trivial

theorem restarts_nil : Restarts P [] := by
  intro past e rest h
  simp at h

theorem Restarts.append (h : Restarts P evs) (hn : ∀ past e rest, new = past ++ e :: rest → Conforms P (evs ++ past) e) :
    Restarts P (evs ++ new) := by
  intro past e rest he
  rcases List.append_eq_append_iff.mp he with ⟨a, rfl, hnew⟩ | ⟨a, rfl, ha⟩
  · exact hn a e rest hnew
  · cases a with
    | nil =>
      have hc := hn [] e rest ha.symm
      rwa [List.append_nil, List.append_nil] at hc
    | cons x a =>
      obtain ⟨rfl, -⟩ := List.cons.inj ha
      exact h past e a rfl

theorem Restarts.snoc (h : Restarts P evs) (he : Conforms P evs e) : Restarts P (evs ++ [e]) := by
  refine h.append fun past x rest hx => ?_
  cases past with
  | nil =>
    obtain ⟨rfl, -⟩ := List.cons.inj hx
    rwa [List.append_nil]
  | cons y past => simp at hx

theorem Restarts.quiet (h : Restarts P evs) (hf : ∀ e ∈ new, isFetch e = false) (hn : ∀ e ∈ new, Conforms P evs e) :
    Restarts P (evs ++ new) := by
  refine h.append fun past e rest he => ?_
  have hm : e ∈ new := by
    rw [he]
    simp
  exact (hn e hm).append (hf e hm) past

section

variable {ε ι σ κ : Type} {S : Subclass ε ι σ κ} {env : Env ε} {c c' : Config σ κ} {cmd : Cmd κ} {rest : List (Cmd κ)}

structure Programmed (P : Program) (q : QueueBase) : Prop where
  enabled : q.enabled = true
  base_eq : q.base = P.base
  len_eq : q.len = P.len
  descLen_eq : q.descLen = P.descLen

theorem Programmed.of_ring {q q' : QueueBase} (h : Programmed P q) (hr : q'.ring = q.ring) : Programmed P q' := by
  obtain ⟨h1, h2, h3, -, h5, -, -, -⟩ := Ring.mk.inj hr
  exact ⟨h5.trans h.enabled, h1.trans h.base_eq, h2.trans h.len_eq, h3.trans h.descLen_eq⟩

/-- A queue that has done `evs` since it was given the program `P`. -/
structure Restarted (S : Subclass ε ι σ κ) (P : Program) (old evs : List Event) (c : Config σ κ) : Prop where
  inv : Inv S c
  program : Programmed P c.q
  log : c.log = old ++ evs
  first : (∀ e ∈ evs, isFetch e = false) → c.q.activeFirstIdx = P.head ∧ c.q.activeCnt = 0
  taken : ∀ p, c.q.states p ≠ .empty → Taken evs p
  restarts : Restarts P evs

theorem Restarted.keep (h : Restarted S P old evs c) (hi : Inv S c') (hr : c'.q.ring = c.q.ring)
    (hlog : c'.log = c.log ++ new) (hf : ∀ e ∈ new, isFetch e = false) (hn : ∀ e ∈ new, Conforms P evs e) :
    Restarted S P old (evs ++ new) c' := by
  obtain ⟨-, -, -, -, -, hpos, hidx, hcnt⟩ := Ring.mk.inj hr
  refine ⟨hi, h.program.of_ring hr, ?_, fun hnone => ?_, fun p hp => ?_, h.restarts.quiet hf hn⟩
  · rw [hlog, h.log, List.append_assoc]
  · have hfirst := h.first fun e he => hnone e (List.mem_append_left _ he)
    exact ⟨hidx.trans hfirst.1, hcnt.trans hfirst.2⟩
  · refine (h.taken p ?_).append new
    rw [← hi.window.active_iff] at hp
    rw [← h.inv.window.active_iff, ← hpos, ← hcnt]
    exact hp

theorem Restarted.held (h : Restarted S P old evs c) (hp : p ∈ S.held c.client) : Taken evs p := by
  apply h.taken
  have hm : (p, DescState.processing) ∈ claims S c := List.mem_append_right _ (List.mem_map_of_mem hp)
  rw [h.inv.owned.state_eq hm]
  simp

theorem Restarted.effect {e : Effect σ κ} (hrel : ∀ w, e.write = some w → Taken evs w.1) :
    (∀ x ∈ e.calls.map Event.call ++ e.write.toList.map fun w => Event.dataWrite w.1 w.2.1 w.2.2, isFetch x = false) ∧
      ∀ x ∈ e.calls.map Event.call ++ e.write.toList.map fun w => Event.dataWrite w.1 w.2.1 w.2.2, Conforms P evs x := by
  constructor
  · intro x hx
    rcases List.mem_append.mp hx with hx | hx
    · obtain ⟨o, -, rfl⟩ := List.mem_map.mp hx
      rfl
    · obtain ⟨w, -, rfl⟩ := List.mem_map.mp hx
      rfl
  · intro x hx
    rcases List.mem_append.mp hx with hx | hx
    · obtain ⟨o, -, rfl⟩ := List.mem_map.mp hx
      trivial
    · obtain ⟨w, hw, rfl⟩ := List.mem_map.mp hx
      exact hrel w (Option.mem_toList.mp hw)

theorem Restarted.fetch (h : Restarted S P old evs c) (hi : Inv S c') (hq : c'.q = c.q.beginFetch)
    (hlog : c'.log = c.log ++ [.fetch c.q.fetchPos c.q.nextIdx c.q.fetchCnt c.q.fetchAddr]) :
    Restarted S P old (evs ++ [.fetch c.q.fetchPos c.q.nextIdx c.q.fetchCnt c.q.fetchAddr]) c' := by
  have hl : 0 < c.q.len := Nat.lt_of_le_of_lt (Nat.zero_le _) h.inv.window.idx_lt
  refine ⟨hi, ?_, ?_, fun hnone => ?_, fun p hp => ?_, h.restarts.snoc ⟨?_, ?_, fun hnone => ?_⟩⟩
  · rw [hq]
    exact ⟨h.program.enabled, h.program.base_eq, h.program.len_eq, h.program.descLen_eq⟩
  · rw [hlog, h.log, List.append_assoc]
  · have hx := hnone _ (List.mem_append_right _ (List.mem_singleton.mpr rfl))
    cases hx
  · rw [hq, states_beginFetch] at hp
    by_cases ho : offset c.q.fetchPos p < c.q.fetchCnt
    · exact ⟨_, List.mem_append_right _ (List.mem_singleton.mpr rfl), ho⟩
    · rw [if_neg ho] at hp
      exact (h.taken p hp).append _
  · rw [QueueBase.fetchAddr, Program.addr, h.program.base_eq, h.program.descLen_eq]
  · rw [← h.program.len_eq]
    exact (fetchCnt_bounds c.q hl).2.2
  · obtain ⟨hidx, hcnt⟩ := h.first hnone
    rw [QueueBase.nextIdx, hcnt, Nat.add_zero, Nat.mod_eq_of_lt h.inv.window.idx_lt, hidx]

theorem Restarted.writebackDone {pos n : ℕ} (h : Restarted S P old evs c) (hi : Inv S c')
    (hs : c.stack = .writebackDone pos n :: rest) (hq : c'.q = (c.q.markRange pos n .writtenBack).bump)
    (hlog : c'.log = c.log ++ [.interrupt]) : Restarted S P old (evs ++ [.interrupt]) c' := by
  obtain ⟨rfl, hn⟩ := h.inv.settled.front pos n rest hs
  have hb := bumpCnt_eq h.inv.window.cnt_le hn h.inv.settled.states
  refine ⟨hi, ?_, ?_, fun hnone => ?_, fun p hp => ?_, h.restarts.snoc trivial⟩
  · rw [hq]
    exact ⟨h.program.enabled, h.program.base_eq, h.program.len_eq, h.program.descLen_eq⟩
  · rw [hlog, h.log, List.append_assoc]
  · obtain ⟨hidx, hcnt⟩ := h.first fun e he => hnone e (List.mem_append_left _ he)
    obtain rfl : n = 0 := by omega
    rw [hq]
    refine ⟨?_, ?_⟩
    · change (c.q.activeFirstIdx + _) % c.q.len = _
      rw [hb, Nat.add_zero, Nat.mod_eq_of_lt h.inv.window.idx_lt, hidx]
    · change c.q.activeCnt - _ = 0
      omega
  · rw [hq, states_bump hb] at hp
    split at hp
    · exact absurd rfl hp
    · exact (h.taken p hp).append _

theorem Restarted.writeback (h : Restarted S P old evs c) : Conforms P evs (writebackEvent S c) := by
  obtain ⟨hle, hlen⟩ := writebackCnt_bounds c.q h.inv.window.idx_lt h.inv.len_lt
  have hav := (writebackAvail_spec c.q).1
  have htaken : ∀ p, offset c.q.activeFirstPos p < c.q.writebackCnt → Taken evs p := by
    intro p hp
    apply h.taken
    rw [← h.inv.window.active_iff]
    omega
  rw [h.program.len_eq] at hlen
  unfold writebackEvent
  split
  · refine ⟨?_, hlen, htaken⟩
    rw [QueueBase.writebackAddr, Program.addr, h.program.base_eq, h.program.descLen_eq]
  · refine ⟨?_, hlen, htaken⟩
    rw [h.program.len_eq]

theorem writebackEvent_isFetch : isFetch (writebackEvent S c) = false := by
  unfold writebackEvent
  split
  · rfl
  · rfl

theorem Restarted.process {i j : ℕ} {e : Effect σ κ} (h : Restarted S P old evs c)
    (hlt : i + j < c.q.activeCnt) (hp : p = slot maxActiveDescs (c.q.activeFirstPos + (i + j)))
    (hrel : (S.held c.client ++ [p]).Perm (e.released ++ S.held e.client)) :
    Taken evs p ∧ ∀ w, e.write = some w → Taken evs w.1 := by
  have htaken : Taken evs p := by
    apply h.taken
    rw [hp]
    exact (h.inv.window.active (i + j) hlt).1
  refine ⟨htaken, fun w hw => ?_⟩
  have hm : w.1 ∈ e.released ++ S.held e.client := by
    simp [Effect.released, hw]
  rcases List.mem_append.mp (hrel.mem_iff.mpr hm) with hm | hm
  · exact h.held hm
  · rw [List.mem_singleton.mp hm]
    exact htaken

theorem Restarted.exec (h : Restarted S P old evs c) (hs : c.stack = cmd :: rest)
    (he : exec S env { c with stack := rest } cmd = .ok c') : ∃ new, Restarted S P old (evs ++ new) c' := by
  have hi := h.inv.exec hs he
  have hen := h.inv.enabled
  have hnone : c'.q.ring = c.q.ring → c'.log = c.log → ∃ new, Restarted S P old (evs ++ new) c' := by
    intro hr hlog
    exact ⟨[], h.keep hi hr (by rw [hlog, List.append_nil]) (by simp) (by simp)⟩
  cases cmd with
  | triggerFetch =>
    rcases triggerFetch_ok (c := { c with stack := rest }) hen he with ⟨-, rfl⟩ | ⟨-, -, rfl⟩
    · exact hnone rfl rfl
    · exact ⟨_, h.fetch hi rfl rfl⟩
  | triggerProcess =>
    cases he
    rw [triggerProcess_eq (c := { c with stack := rest }) hen] at hnone ⊢
    exact hnone rfl rfl
  | triggerWriteback =>
    rcases triggerWriteback_ok (c := { c with stack := rest }) hen he with ⟨-, rfl⟩ | ⟨-, rfl⟩
    · exact hnone rfl rfl
    · refine ⟨[writebackEvent S c], h.keep hi rfl rfl ?_ ?_⟩
      · intro x hx
        rw [List.mem_singleton.mp hx]
        exact writebackEvent_isFetch
      · intro x hx
        rw [List.mem_singleton.mp hx]
        exact h.writeback
  | processLoop i j =>
    rcases processLoop_ok he with ⟨-, rfl⟩ | ⟨hlt, -, p, q, e, hp, rfl, hpr, ha⟩
    · exact hnone rfl rfl
    · have ha := applyEffect_applied ha
      obtain ⟨htaken, hwrite⟩ := h.process hlt hp (S.process_held hpr)
      obtain ⟨hf, hc⟩ := Restarted.effect (P := P) hwrite
      refine ⟨.process p (((c.q.setState p .processing).ctxs p).index) :: _, h.keep hi ha.ring
        (ha.log.trans (List.append_assoc _ _ _)) ?_ ?_⟩
      · exact List.forall_mem_cons.mpr ⟨rfl, hf⟩
      · exact List.forall_mem_cons.mpr ⟨htaken, hc⟩
  | fetchDone pos cnt i buf =>
    rcases fetchDone_ok he with ⟨-, rfl⟩ | ⟨-, p, d, q, -, -, rfl, ⟨-, rfl⟩ | ⟨addr, len, -, rfl⟩⟩
    · exact hnone rfl rfl
    · exact hnone rfl rfl
    · exact hnone rfl rfl
  | dataFetch p addr off total =>
    have htaken : Taken evs p := by
      apply h.taken
      have hm : (p, DescState.preparing) ∈ claims S c := by
        rw [claims_cons hs]
        exact List.mem_append_left _ (List.mem_singleton.mpr rfl)
      rw [h.inv.owned.state_eq hm]
      simp
    obtain ⟨n, q, -, rfl, ⟨-, rfl⟩ | ⟨-, rfl⟩⟩ := dataFetch_ok he
    · exact ⟨_, h.keep hi rfl rfl (by simp [isFetch]) (by simpa [Conforms] using htaken)⟩
    · exact ⟨_, h.keep hi rfl rfl (by simp [isFetch]) (by simpa [Conforms] using htaken)⟩
  | dataWritten p =>
    rw [dataWritten_ok he] at hnone ⊢
    exact hnone rfl rfl
  | writebackDone pos cnt =>
    obtain ⟨-, rfl⟩ := writebackDone_ok (c := { c with stack := rest }) hen he
    exact ⟨_, h.writebackDone hi hs rfl rfl⟩
  | resume k =>
    obtain ⟨e, hr, ha⟩ := resume_ok he
    have ha := applyEffect_applied ha
    have hwrite : ∀ w, e.write = some w → Taken evs w.1 := by
      intro w hw
      have hm : w.1 ∈ e.released ++ S.held e.client := by
        simp [Effect.released, hw]
      exact h.held ((S.resume_held hr).mem_iff.mpr hm)
    obtain ⟨hf, hc⟩ := Restarted.effect (P := P) hwrite
    exact ⟨_, h.keep hi ha.ring ha.log hf hc⟩

/-- The guest, the wire or another queue acts on a queue at rest. -/
structure Poked (S : Subclass ε ι σ κ) (c c' : Config σ κ) : Prop where
  rest : c.stack = []
  pending : ∀ x ∈ c'.stack, x.claims = [] ∧ x.isWriteback = false
  log : c'.log = c.log
  held : S.held c'.client = S.held c.client
  ctxs : c'.q.ctxs = c.q.ctxs
  first_pos : c'.q.activeFirstPos = c.q.activeFirstPos
  first_idx : c'.q.activeFirstIdx = c.q.activeFirstIdx
  cnt : c'.q.activeCnt = c.q.activeCnt

theorem Poked.claims_eq (h : Poked S c c') : claims S c' = claims S c := by
  have hnil : c'.stack.flatMap Cmd.claims = [] := List.flatMap_eq_nil_iff.mpr fun x hx => (h.pending x hx).1
  rw [claims, claims, hnil, h.held, h.rest]
  rfl

theorem Poked.states (h : Poked S c c') : c'.q.states = c.q.states := by
  unfold QueueBase.states
  rw [h.ctxs]

theorem Restarted.poked (h : Restarted S P old evs c) (hp : Poked S c c') (hprog : Programmed P c'.q) :
    Restarted S P old evs c' := by
  have hlen : c'.q.len = c.q.len := hprog.len_eq.trans h.program.len_eq.symm
  have hw : Window c'.q := by
    refine h.inv.window.congr hp.first_pos hp.first_idx hp.cnt hlen (fun p => ?_) fun p => ?_
    · rw [hp.ctxs]
    · rw [hp.states]
  refine ⟨⟨hprog.enabled, ?_, hw, ?_, .of_none (fun x hx => (hp.pending x hx).2) ?_⟩, hprog, ?_, fun hnone => ?_, ?_,
    h.restarts⟩
  · rw [hlen]
    exact h.inv.len_lt
  · rw [hp.claims_eq, hp.states]
    exact h.inv.owned
  · rw [hp.states]
    exact h.inv.settled.states
  · rw [hp.log]
    exact h.log
  · rw [hp.first_idx, hp.cnt]
    exact h.first hnone
  · rw [hp.states]
    exact h.taken

/-- A queue with nothing in flight that will go on at the head of its new ring. -/
structure Drained (S : Subclass ε ι σ κ) (P : Program) (c : Config σ κ) : Prop where
  cnt : c.q.activeCnt = 0
  empty : ∀ p, c.q.states p = .empty
  held : S.held c.client = []
  head : c.q.activeFirstIdx = P.head
  head_lt : P.head < P.len

theorem Drained.restarted (h : Drained S P c) (hpos : c.q.activeFirstPos < maxActiveDescs) (hp : Poked S c c')
    (hprog : Programmed P c'.q) (hlen : P.len < 0x4000) : Restarted S P c.log [] c' := by
  have hempty : ∀ p, c'.q.states p = .empty := by
    rw [hp.states]
    exact h.empty
  have hcnt : c'.q.activeCnt = 0 := hp.cnt.trans h.cnt
  have hw : Window c'.q := by
    apply Window.of_slots
    · omega
    · rw [hp.first_pos]
      exact hpos
    · rw [hp.first_idx, h.head, hprog.len_eq]
      exact h.head_lt
    · intro p hlt
      omega
    · intro p _
      exact hempty p
  have hnone : claims S c' = [] := by
    rw [hp.claims_eq, claims, hp.rest, h.held]
    rfl
  refine ⟨⟨hprog.enabled, ?_, hw, ⟨?_, fun p s => ?_⟩, .of_none (fun x hx => (hp.pending x hx).2) fun p => ?_⟩, hprog,
    ?_, fun _ => ⟨hp.first_idx.trans h.head, hcnt⟩, fun p hne => absurd (hempty p) hne, restarts_nil⟩
  · rw [hprog.len_eq]
    exact hlen
  · rw [hnone]
    exact List.nodup_nil
  · rw [hnone, hempty p]
    simp only [List.not_mem_nil, false_iff, not_and]
    rintro rfl
    exact id
  · rw [hempty p]
    simp
  · rw [hp.log, List.append_nil]

end

end Vmux.QueueRestart
