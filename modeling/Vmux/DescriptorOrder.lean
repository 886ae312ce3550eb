import Vmux.AdminQueue
import Vmux.LanRx
import Vmux.LanTx
import Vmux.ProcessOrder

namespace Vmux.DescriptorOrder

open Bytes CircularWindow Transitions DescriptorQueue ProcessOrder

section

variable {ε ι σ κ : Type} {S : Subclass ε ι σ κ} {env : Env ε} {c c' : Config σ κ} {cmd : Cmd κ}
  {rest : List (Cmd κ)} {base len done : ℕ}

def NoLoop (l : List (Cmd κ)) : Prop := ∀ i j, .processLoop i j ∉ l

def ResumeSilent (S : Subclass ε ι σ κ) : Prop :=
  ∀ env s ctxs k e, S.resume env s ctxs k = .ok e → e.write = none

/-- No code that a process loop calls starts a DMA operation, so `trigger` is not entered again. -/
def Silent (S : Subclass ε ι σ κ) : Prop :=
  (∀ env s ctxs p e, S.process env s ctxs p = .ok e → e.write = none) ∧
    (ResumeSilent S ∨ ∀ env s ctxs p e, S.process env s ctxs p = .ok e → e.next = none)

/-- A process loop on the stack runs next, and it is at the first unprocessed descriptor. -/
def Direct (S : Subclass ε ι σ κ) (c : Config σ κ) : Prop :=
  ∀ pre i j post, c.stack = pre ++ .processLoop i j :: post →
    (∀ x ∈ pre, x.isResume = true) ∧ (pre = [] ∨ ResumeSilent S) ∧ i + j = c.q.firstUnprocessed

theorem NoLoop.append {a b : List (Cmd κ)} (ha : NoLoop a) (hb : NoLoop b) : NoLoop (a ++ b) := by
  intro i j hm
  rcases List.mem_append.mp hm with hm | hm
  · exact ha i j hm
  · exact hb i j hm

theorem NoLoop.elim {l pre post : List (Cmd κ)} {i j : ℕ} (h : NoLoop l) (hl : l = pre ++ .processLoop i j :: post) :
    False :=
  h i j (by rw [hl]; simp)

theorem Direct.of_noLoop (h : NoLoop c.stack) : Direct S c := by
  intro pre i j post hs
  exact (h.elim hs).elim

theorem Direct.noLoop (h : Direct S c) (hs : c.stack = cmd :: rest) (hc : cmd.isResume = false) : NoLoop rest := by
  intro i j hm
  obtain ⟨pre, post, rfl⟩ := List.append_of_mem hm
  have hp := (h (cmd :: pre) i j post hs).1 cmd List.mem_cons_self
  rw [hc] at hp
  cases hp

theorem split_loop {a b pre post : List (Cmd κ)} {i j : ℕ} (ha : NoLoop a)
    (h : pre ++ .processLoop i j :: post = a ++ b) : ∃ pre', pre = a ++ pre' ∧ b = pre' ++ .processLoop i j :: post := by
  rcases List.append_eq_append_iff.mp h with ⟨as, rfl, hb⟩ | ⟨bs, rfl, hb⟩
  · cases as with
    | nil => exact ⟨[], by simp, by simpa using hb.symm⟩
    | cons x as =>
      rw [List.cons_append, List.cons.injEq] at hb
      exact absurd (by rw [← hb.1]; simp) (ha i j)
  · exact ⟨bs, rfl, hb⟩

theorem cmds_noLoop (e : Effect σ κ) : NoLoop e.cmds := by
  intro i j hm
  simp [Effect.cmds] at hm

theorem cmds_isResume {e : Effect σ κ} (h : e.write = none) : ∀ x ∈ e.cmds, x.isResume = true := by
  intro x hx
  simp only [Effect.cmds, h, Option.toList_none, List.map_nil, List.nil_append, List.mem_map] at hx
  obtain ⟨k, -, rfl⟩ := hx
  rfl

theorem Direct.noneOnItsWay (h : Direct S c) : NoneOnItsWay c := by
  intro i j rest hs _ _ k hk
  have hij := (h [] i j rest hs).2.2
  have hc := called_of_lt (q := c.q) (i := k) (by omega)
  constructor <;>
  · intro hst
    rw [hst] at hc
    exact absurd hc (by decide)

theorem trigger_noLoop : NoLoop (trigger κ) := by
  intro i j hm
  simp [trigger] at hm

theorem Direct.exec (hS : Silent S) (h : Direct S c) (ho : Order base len c done) (hi : Inv S c)
    (hs : c.stack = cmd :: rest) (he : exec S env { c with stack := rest } cmd = .ok c') : Direct S c' := by
  cases cmd with
  | triggerFetch =>
    have hn := h.noLoop hs rfl
    rcases triggerFetch_ok (c := { c with stack := rest }) hi.enabled he with ⟨-, rfl⟩ | ⟨-, -, rfl⟩
    · exact .of_noLoop hn
    · exact .of_noLoop (NoLoop.append (a := [_]) (by simp [NoLoop]) hn)
  | triggerProcess =>
    have hn := h.noLoop hs rfl
    cases he
    rw [triggerProcess_eq (c := { c with stack := rest }) hi.enabled]
    intro pre i j post hst
    cases pre with
    | nil =>
      cases hst
      exact ⟨by simp, .inl rfl, rfl⟩
    | cons x pre =>
      rw [List.cons_append, List.cons.injEq] at hst
      exact (hn.elim hst.2).elim
  | triggerWriteback =>
    have hn := h.noLoop hs rfl
    rcases triggerWriteback_ok (c := { c with stack := rest }) hi.enabled he with ⟨-, rfl⟩ | ⟨-, rfl⟩
    · exact .of_noLoop hn
    · exact .of_noLoop (NoLoop.append (a := [_]) (by simp [NoLoop]) hn)
  | processLoop i j =>
    have hn := h.noLoop hs rfl
    have hij := (h [] i j rest hs).2.2
    rcases exec_subclass (c := { c with stack := rest }) hi.enabled he with
      hq | ⟨i', j', p, e, hc, -, hlt, hst, hp, ha⟩ | ⟨k, e, hc, -⟩
    · obtain ⟨rfl, -⟩ := hq.cmd.2 i j rfl
      exact .of_noLoop hn
    · cases hc
      obtain ⟨-, hf⟩ := (ho.ordered.pop rest).process hi.window ha hlt hij
      intro pre i' j' post hst'
      rw [ha.stack] at hst'
      obtain ⟨pre', rfl, hb⟩ := split_loop (cmds_noLoop e) hst'.symm
      cases pre' with
      | nil =>
        cases hb
        rw [List.append_nil]
        refine ⟨cmds_isResume (hS.1 _ _ _ _ _ hp), ?_, ?_⟩
        · rcases hS.2 with hr | hr
          · exact .inr hr
          · exact .inl (by simp [Effect.cmds, hS.1 _ _ _ _ _ hp, hr _ _ _ _ _ hp])
        · rw [hf, ← Nat.add_assoc, hij]
      | cons x pre' =>
        rw [enterProcess, List.cons_append, List.cons.injEq] at hb
        exact (hn.elim hb.2).elim
    · cases hc
  | fetchDone pos cnt i buf =>
    have hn := h.noLoop hs rfl
    rcases fetchDone_ok he with ⟨-, rfl⟩ | ⟨-, p, d, q, -, -, -, ⟨-, rfl⟩ | ⟨addr, len, -, rfl⟩⟩
    · exact .of_noLoop (trigger_noLoop.append hn)
    · exact .of_noLoop (NoLoop.append (a := [_]) (by simp [NoLoop]) hn)
    · exact .of_noLoop (NoLoop.append (a := [_, _]) (by simp [NoLoop]) hn)
  | dataFetch p addr off total =>
    have hn := h.noLoop hs rfl
    obtain ⟨n, q, -, -, ⟨-, rfl⟩ | ⟨-, rfl⟩⟩ := dataFetch_ok he
    · exact .of_noLoop (NoLoop.append (a := [_]) (by simp [NoLoop]) hn)
    · exact .of_noLoop (trigger_noLoop.append hn)
  | dataWritten p =>
    have hn := h.noLoop hs rfl
    rw [dataWritten_ok he]
    exact .of_noLoop (trigger_noLoop.append hn)
  | writebackDone pos n =>
    have hn := h.noLoop hs rfl
    rw [(writebackDone_ok (c := { c with stack := rest }) hi.enabled he).2]
    exact .of_noLoop (trigger_noLoop.append hn)
  | resume k =>
    obtain ⟨e, hr, ha⟩ := resume_ok he
    have ha := applyEffect_applied ha
    have hf : c'.q.firstUnprocessed = c.q.firstUnprocessed := by
      rcases exec_order hi hs he with ⟨h1, h2, h3, h4, -⟩ | ⟨hc, -⟩ | ⟨pos, n, hc, -⟩ | ⟨i, j, e, hc, -⟩
      · exact (ho.ordered.congr h1 h2 h3 fun i _ => h4 _).2
      · cases hc
      · cases hc
      · cases hc
    intro pre i j post hst
    rw [ha.stack] at hst
    obtain ⟨pre', rfl, hb⟩ := split_loop (cmds_noLoop e) hst.symm
    obtain ⟨h1, h2, h3⟩ := h (.resume k :: pre') i j post (by rw [hs]; exact congr_arg _ hb)
    have hsil : ResumeSilent S := h2.resolve_left (by simp)
    refine ⟨?_, .inr hsil, by rw [hf]; exact h3⟩
    intro x hx
    rcases List.mem_append.mp hx with hx | hx
    · exact cmds_isResume (hsil _ _ _ _ _ hr) x hx
    · exact h1 x (List.mem_cons_of_mem _ hx)

theorem Direct.step (hS : Silent S) (h : Direct S c) (ho : Order base len c done) (hi : Inv S c)
    (hs : QueueStep S c c') : Direct S c' := by
  cases hs with
  | exec env cmd rest hs he => exact h.exec hS ho hi hs he
  | tail t _ hs he =>
    subst he
    apply Direct.of_noLoop
    simp only [tailWrite, hi.enabled, if_true, hs, List.append_nil]
    exact trigger_noLoop
  | receive env x hs he =>
    obtain ⟨k, rfl⟩ := receive_ok he
    apply Direct.of_noLoop
    rw [hs]
    intro i j hm
    simp at hm

theorem Direct.reachable (hS : Silent S) (h : (machine S base len).Reachable c) :
    (orderly S base len).Reachable c ∧ Direct S c := by
  induction h with
  | start h =>
    refine ⟨.start h, .of_noLoop ?_⟩
    rw [h.stack]
    exact trigger_noLoop
  | step hr h ih =>
    obtain ⟨done, ho⟩ := Order.reachable ih.1
    exact ⟨.step ih.1 ⟨h, ih.2.noneOnItsWay⟩, ih.2.step hS ho (Inv.reachable hr) h⟩

theorem inOrder_of_silent (hS : Silent S) (h : (machine S base len).Reachable c) : InOrder c := by
  obtain ⟨done, ho⟩ := Order.reachable (Direct.reachable hS h).1
  exact ho.ordered.inOrder

end

theorem lanRx_silent : Silent LanRx.subclass := by
  refine ⟨?_, .inr ?_⟩ <;>
  · rintro env s ctxs p e ⟨⟩
    rfl

theorem lanTx_silent : Silent LanTx.subclass := by
  refine ⟨?_, .inl ?_⟩
  · rintro env s ctxs p e ⟨⟩
    rfl
  · intro env s ctxs k e h
    obtain ⟨r, -, h⟩ := bind_ok h
    cases r <;> cases h <;> rfl

theorem process_in_order (base len : ℕ) :
    (∀ c, (machine LanRx.subclass base len).Reachable c → InOrder c) ∧
    (∀ c, (machine LanTx.subclass base len).Reachable c → InOrder c) ∧
    (∀ c, (orderly AdminQueue.subclass base len).Reachable c → InOrder c) ∧
    ∀ c c', (orderly AdminQueue.subclass base len).Reachable c → QueueStep AdminQueue.subclass c c' →
      (InOrder c' ↔ NoneOnItsWay c) := by
  refine ⟨fun c => inOrder_of_silent lanRx_silent, fun c => inOrder_of_silent lanTx_silent, fun c h => ?_,
    fun c c' h hs => step_inOrder_iff h hs⟩
  obtain ⟨done, ho⟩ := Order.reachable h
  exact ho.ordered.inOrder

def rxRing : Config LanRx.RxClient LanRx.RxPacket := Config.enabled 0x1000 3 32 ⟨[], 2048, 0, 0, false⟩

def adminRing : Config AdminQueue.AdminClient Unit :=
  Config.enabled 0x1000 4 32 ⟨⟨0, 0, 60, fun _ => none, [], [], fun _ => [], fun _ => 0⟩, []⟩

theorem process_in_order_rxRing :
    (∃ c, (machine LanRx.subclass 0x1000 3).Reachable c ∧ processes c.log = [(0, 0), (1, 1)] ∧ InOrder c) ∧
      InOrder adminRing := by
  have hrun : (tailWrites LanRx.subclass ⟨fun _ => 0, fun _ _ => true, ⟨fun _ => 0, 0, fun _ => 0⟩⟩ 40 [2]
      rxRing).toOption.map (fun c => processes c.log) = some [(0, 0), (1, 1)] := by decide +kernel
  have hstart : (machine LanRx.subclass 0x1000 3).Reachable rxRing :=
    Reachable.enabled 32 (by norm_num) (by norm_num) rfl
  obtain ⟨c, hc, hf⟩ := Reachable.observe (fun _ _ h => h) hstart (by simp) hrun
  refine ⟨⟨c, hc, hf, (process_in_order 0x1000 3).1 c hc⟩, (process_in_order 0x1000 4).2.2.1 _ (.start ?_)⟩
  exact ⟨rfl, rfl, rfl, by norm_num, by norm_num, rfl, rfl, rfl, fun _ => rfl, rfl, rfl, rfl⟩

/-- Guest memory with a `set_rss_key` command, which reads and writes its buffer, in ring slot 2. -/
def wrapMem : ℕ → UInt8
  | 0x1041 => 0x14 | 0x1042 => 0x02 | 0x1043 => 0x0B | 0x1044 => 4 | 0x105D => 0x20
  | _ => 0

/-- Slots 2 and 3 are fetched up to the end of the ring, and slot 0 while slot 3 is still on its way. -/
theorem overtaken_at_ring_end :
    ∃ c, (machine AdminQueue.subclass 0x1000 4).Reachable c ∧
      processes c.log = [(0, 0), (1, 1), (2, 2), (4, 0), (3, 3)] ∧ ¬InOrder c := by
  have hrun : (tailWrites AdminQueue.subclass ⟨wrapMem, fun _ _ => true, ⟨0, fun _ => 0⟩⟩ 200 [2, 1]
      adminRing).toOption.map (fun c => (processes c.log, (fetched c.q.descLen c.log).map key)) =
      some ([(0, 0), (1, 1), (2, 2), (4, 0), (3, 3)], [(0, 0), (1, 1), (2, 2), (3, 3), (4, 0)]) := by decide +kernel
  have hstart : (machine AdminQueue.subclass 0x1000 4).Reachable adminRing :=
    Reachable.enabled 32 (by norm_num) (by norm_num) rfl
  obtain ⟨c, hc, hf⟩ := Reachable.observe (fun _ _ h => h) hstart (by simp) hrun
  rw [Prod.mk.injEq] at hf
  refine ⟨c, hc, hf.1, ?_⟩
  unfold InOrder
  rw [hf.1, hf.2]
  decide

end Vmux.DescriptorOrder
