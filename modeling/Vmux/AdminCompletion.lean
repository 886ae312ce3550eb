import Vmux.DescriptorOrder
import Vmux.Tracing

namespace Vmux.AdminCompletion

open Bytes CircularWindow Transitions DescriptorQueue AdminQueue ProcessOrder ExactlyOnce Tracing

def retval (d : List UInt8) : ℕ := get16 d 6

def cookies (d : List UInt8) : List UInt8 := slice d 8 8

/-- The fields that a command leaves as they were posted. -/
structure Kept (o d : List UInt8) : Prop where
  length : d.length = 32
  opcode : opcode d = AdminQueue.opcode o
  cookies : cookies d = AdminCompletion.cookies o

/-- A descriptor as it goes back to the guest: DD and CMP are set, and ERR for an error. -/
structure Completed (o d : List UInt8) : Prop extends Kept o d where
  dd : flags d % 2 = 1
  cmp : flags d / 2 % 2 = 1
  err : flags d / 4 % 2 = 1 ↔ retval d ≠ 0

theorem Kept.refl {o : List UInt8} (h : o.length = 32) : Kept o o := ⟨h, rfl, rfl⟩

section

variable {o d : List UInt8}

theorem Kept.overwrite {off : ℕ} {bs : List UInt8} (h : Kept o d) (hn : off + bs.length ≤ 32)
    (ho : off + bs.length ≤ 2 ∨ (4 ≤ off ∧ off + bs.length ≤ 8) ∨ 16 ≤ off) : Kept o (overwrite d off bs) := by
  have hlen := h.length
  have hget : ∀ k, k < off ∨ off + bs.length ≤ k → (Bytes.overwrite d off bs)[k]? = d[k]? :=
    fun k hk => getElem?_overwrite (by omega) hk
  refine ⟨(overwrite_length (by omega)).trans hlen, ?_, ?_⟩
  · refine Eq.trans ?_ h.opcode
    exact congrArg leNat (slice_congr fun k h1 h2 => hget k (by omega))
  · refine Eq.trans ?_ h.cookies
    exact slice_congr fun k h1 h2 => hget k (by omega)

theorem Kept.put8 {off v : ℕ} (h : Kept o d) (hn : off + 1 ≤ 32) (ho : off + 1 ≤ 2 ∨ 4 ≤ off ∧ off + 1 ≤ 8 ∨ 16 ≤ off) :
    Kept o (put8 off v d) := by
  refine h.overwrite ?_ ?_ <;> rwa [leBytes_length]

theorem Kept.put16 {off v : ℕ} (h : Kept o d) (hn : off + 2 ≤ 32)
    (ho : off + 2 ≤ 2 ∨ 4 ≤ off ∧ off + 2 ≤ 8 ∨ 16 ≤ off) : Kept o (put16 off v d) := by
  refine h.overwrite ?_ ?_ <;> rwa [leBytes_length]

theorem Kept.put32 {off v : ℕ} (h : Kept o d) (hn : off + 4 ≤ 32)
    (ho : off + 4 ≤ 2 ∨ 4 ≤ off ∧ off + 4 ≤ 8 ∨ 16 ≤ off) : Kept o (put32 off v d) := by
  refine h.overwrite ?_ ?_ <;> rwa [leBytes_length]

theorem getVer_kept (h : Kept o d) : Kept o (getVer d) := by
  unfold getVer
  refine Kept.put8 (Kept.put8 (Kept.put8 (Kept.put8 (Kept.put32 (Kept.put32 h ?_ ?_) ?_ ?_) ?_ ?_) ?_ ?_) ?_ ?_) ?_ ?_
  all_goals decide

theorem descComplPrepare_completed {r : ℕ} (h : Kept o d) (hr : r < 65536) : Completed o (descComplPrepare r d) := by
  have hlen := h.length
  have hf : flags d < 65536 := get16_lt d 0
  have hk : Kept o (descComplPrepare r d) :=
    Kept.put16 (h.put16 (by decide) (by decide)) (by decide) (by decide)
  have hlen0 : (Bytes.put16 0 (flags d / 0x200 * 0x200 + 3 + if r = 0 then 0 else 4) d).length = 32 :=
    (overwrite_length (by rw [leBytes_length]; omega)).trans hlen
  have hflags : flags (descComplPrepare r d) = flags d / 0x200 * 0x200 + 3 + if r = 0 then 0 else 4 := by
    unfold flags descComplPrepare
    rw [get16_put16_ne (by omega) (by omega), get16_put16 (by omega)]
    apply Nat.mod_eq_of_lt
    split <;> omega
  have hret : retval (descComplPrepare r d) = r := by
    unfold retval descComplPrepare
    rw [get16_put16 (by omega), Nat.mod_eq_of_lt hr]
  refine ⟨hk, ?_, ?_, ?_⟩
  · rw [hflags]
    split <;> omega
  · rw [hflags]
    split <;> omega
  · rw [hflags, hret]
    split <;> omega

end

/-- The error code of an answer; that to `add_txqs` is still to come. -/
def Reply.code : Reply → ℕ
  | .later => 0
  | .direct r | .indirect r _ => r

structure Answers (o : List UInt8) (h : Handled) : Prop where
  kept : Kept o h.desc
  code_lt : Reply.code h.reply < 65536

theorem Answers.ok {o : List UInt8} {x h : Handled} (he : Except.ok x = (.ok h : Except Fault Handled))
    (hk : Kept o x.desc) (hr : Reply.code x.reply < 65536) : Answers o h := by
  cases he
  exact ⟨hk, hr⟩

theorem Answers.replyData {o desc data : List UInt8} {dev : AdminDev} {calls : List Output} {h : Handled}
    (he : replyData desc data dev calls = .ok h) (hk : Kept o desc) : Answers o h := by
  obtain ⟨_, -, he⟩ := bind_ok he
  cases he
  exact ⟨hk, by simp [Reply.code]⟩

theorem nvmRead_code (offset : ℕ) : (nvmRead offset).1 < 65536 := by
  unfold nvmRead
  repeat' split
  all_goals decide

theorem handle_answers {env : AdminEnv} {dev : AdminDev} {ctxs : Slot → DescCtx} {p : Slot} {h : Handled}
    (hl : (ctxs p).desc.length = 32) (he : handle env dev ctxs p = .ok h) : Answers (ctxs p).desc h := by
  have hk := Kept.refl hl
  unfold handle at he
  dsimp only at he
  split at he
  all_goals with_reducible first
    | exact .replyData he hk
    | exact .ok he hk (by simp [Reply.code, nvmRead_code])
    | exact .ok he (hk.put16 (by decide) (by decide)) (by simp [Reply.code])
    | exact .ok he (hk.put32 (by decide) (by decide)) (by simp [Reply.code])
    | exact .replyData he (hk.put16 (by decide) (by decide))
    | skip
  · exact .ok he (getVer_kept hk) (by simp [Reply.code])
  · split at he
    · exact .ok he (hk.put32 (by decide) (by decide)) (by simp [Reply.code])
    · exact .ok he (hk.put16 (by decide) (by decide)) (by simp [Reply.code])
  · split at he
    · exact .ok he (hk.put32 (by decide) (by decide)) (by simp [Reply.code])
    · exact .ok he (hk.put16 (by decide) (by decide)) (by simp [Reply.code])
  · exact .ok he ((hk.put8 (by decide) (by decide)).put16 (by decide) (by decide)) (by simp [Reply.code])
  · exact .ok he ((hk.put32 (by decide) (by decide)).put32 (by decide) (by decide)) (by simp [Reply.code])
  · obtain ⟨_, -, he⟩ := bind_ok he
    obtain ⟨_, -, he⟩ := bind_ok he
    exact .replyData he hk
  · obtain ⟨_, -, he⟩ := bind_ok he
    exact .ok he hk (by simp [Reply.code])
  · obtain ⟨_, -, he⟩ := bind_ok he
    obtain ⟨_, -, he⟩ := bind_ok he
    exact .ok he hk (by simp [Reply.code])
  · exact .ok he ((hk.put8 (by decide) (by decide)).put8 (by decide) (by decide)) (by simp [Reply.code])
  · obtain ⟨_, -, he⟩ := bind_ok he
    obtain ⟨_, -, he⟩ := bind_ok he
    obtain ⟨_, -, he⟩ := bind_ok he
    exact .ok he (hk.put16 (by decide) (by decide)) (by simp [Reply.code])
  · obtain ⟨_, -, he⟩ := bind_ok he
    obtain ⟨_, -, he⟩ := bind_ok he
    exact .replyData he (hk.put16 (by decide) (by decide))
  · obtain ⟨_, -, he⟩ := bind_ok he
    split at he
    · cases he
    · exact .ok he hk (by simp [Reply.code])
  · obtain ⟨_, -, he⟩ := bind_ok he
    exact .replyData he hk
  · exact .replyData he ((hk.put32 (by decide) (by decide)).put32 (by decide) (by decide))
  · obtain ⟨_, -, he⟩ := bind_ok he
    exact .replyData he hk

theorem assigned_self {α : Type} (f : Slot → α) (p : Slot) (x : α) : assigned f [(p, x)] p = x :=
  Function.update_self _ _ _

theorem assigned_ne {α : Type} {f : Slot → α} {p r : Slot} {x : α} (h : r ≠ p) : assigned f [(p, x)] r = f r :=
  Function.update_of_ne h _ _

/-- The admin queue keeps opcode and cookies of a command all the way, and completes the rest. -/
def tracking : Tracking AdminQueue.subclass where
  allowed _ := True
  load _ _ _ := True
  keeps _ o d _ := o.length = 32 → Kept o d
  done _ o d _ := o.length = 32 → Completed o d
  load_nil _ _ := trivial
  load_read _ _ _ := trivial

theorem complete_leaves {s : AdminClient} {p : Slot} {h : Handled} {e : Effect AdminClient Unit}
    {orig : Slot → List UInt8} {ctxs : Slot → DescCtx} (hc : complete s p h = .ok e) (hp : p ∉ s.pending)
    (ha : (orig p).length = 32 → Answers (orig p) h)
    (hs : ∀ r ∈ s.pending, (orig r).length = 32 → Kept (orig r) (descOf ctxs r)) :
    Leaves tracking orig (s.pending ++ [p]) ctxs e := by
  have hheld : ∀ d, ∀ r ∈ s.pending, (orig r).length = 32 → Kept (orig r) (assigned (descOf ctxs) [(p, d)] r) := by
    intro d r hr hl
    have hne : r ≠ p := fun he => hp (he ▸ hr)
    rw [assigned_ne hne]
    exact hs r hr hl
  unfold complete at hc
  split at hc
  · cases hc
    refine ⟨by simp, by simp, by simp [Effect.released], ?_⟩
    intro r hr hl
    rcases List.mem_append.mp hr with hr | hr
    · exact hheld _ r hr hl
    · obtain rfl := List.mem_singleton.mp hr
      rw [assigned_self]
      exact (ha hl).kept
  · rename_i code hr
    cases hc
    refine ⟨by simp, by simp, ?_, fun r hr hl => hheld _ r hr hl⟩
    intro r hr' hl
    obtain rfl : r = p := by simpa [Effect.released] using hr'
    have hcode := (ha hl).code_lt
    rw [hr] at hcode
    rw [assigned_self]
    exact descComplPrepare_completed (ha hl).kept hcode
  · rename_i code bytes hr
    split at hc
    · cases hc
    · cases hc
      refine ⟨by simp, by simp, ?_, fun r hr hl => hheld _ r hr hl⟩
      intro r hr' hl
      obtain rfl : r = p := by simpa [Effect.released] using hr'
      have hcode := (ha hl).code_lt
      rw [hr] at hcode
      rw [assigned_self]
      exact descComplPrepare_completed ((ha hl).kept.put16 (by decide) (by decide)) hcode

theorem tracking_processes (env : Env AdminEnv) (s : AdminClient) : tracking.Processes env s := by
  intro ctxs p e orig hp hn hready hkeeps
  obtain ⟨h, hh, hc⟩ := bind_ok hp
  have hpn : p ∉ s.pending := by
    intro hm
    exact (List.nodup_append.mp hn).2.2 p hm p (List.mem_singleton_self p) rfl
  have ha : (orig p).length = 32 → Answers (orig p) h := by
    intro hl
    rw [← hready.1] at hl ⊢
    exact handle_answers hl hh
  exact complete_leaves (s := { s with dev := h.dev }) hc hpn ha hkeeps

theorem tracking_resumes (env : Env AdminEnv) (s : AdminClient) (k : Unit) : tracking.Resumes env s k := by
  intro ctxs e orig hr hn hkeeps
  change AdminQueue.resume s ctxs = .ok e at hr
  unfold AdminQueue.resume at hr
  split at hr
  · cases hr
  · rename_i p pending hpend
    obtain ⟨h, hh, hc⟩ := bind_ok hr
    change (s.pending).Nodup at hn
    change ∀ r ∈ s.pending, _ at hkeeps
    rw [hpend] at hn hkeeps
    have hlv := complete_leaves (s := { s with pending }) hc (List.nodup_cons.mp hn).1
      (fun hl => .replyData hh (hkeeps p List.mem_cons_self hl)) fun r hr => hkeeps r (List.mem_cons_of_mem _ hr)
    have hmem : ∀ r, r ∈ pending ++ [p] → r ∈ AdminQueue.subclass.held s := by
      intro r hr
      change r ∈ s.pending
      rw [hpend]
      simpa [or_comm] using hr
    exact ⟨fun x hx => hmem _ (hlv.descs x hx), fun x hx => hmem _ (hlv.datas x hx), hlv.released, hlv.held⟩

/-- A PF admin queue whose base and length were set once after reset. -/
def commands (base len : ℕ) : Machine (Traced AdminClient Unit) where
  start s := Enabled AdminQueue.subclass base len s.c ∧ s.c.q.descLen = 32 ∧ s.c.q.regHead = 0 ∧
    s.c.q.regTail < len ∧ s.posted = s.c.q.regTail ∧ s.seen = []
  step := TracedStep AdminQueue.subclass len len

def orderlyCommands (base len : ℕ) : Machine (Traced AdminClient Unit) :=
  (commands base len).restrict fun s _ => NoneOnItsWay s.c

/-- All commands posted so far have been executed in order and completed in their own slots. -/
structure Drained (base len : ℕ) (s : Traced AdminClient Unit) : Prop where
  cnt : s.c.q.activeCnt = 0
  empty : ∀ p, s.c.q.states p = .empty
  head : s.c.q.regHead = s.c.q.regTail
  executed : processes s.c.log = (turns base len 32 s.posted).map key
  read : fetched 32 s.c.log = turns base len 32 s.posted
  written : written 32 s.c.log = turns base len 32 s.posted
  completed : List.Forall₂ Completed s.seen (returned 32 s.c.log)

section

variable {base len : ℕ} {s s' : Traced AdminClient Unit}

theorem commands_queue (h : (commands base len).Reachable s) :
    len < 0x4000 ∧ 1 ≤ len ∧ (machine AdminQueue.subclass base len).Reachable s.c := by
  induction h with
  | start h => exact ⟨h.1.len_lt, h.1.len_pos, .start h.1⟩
  | step _ h ih => exact ⟨ih.1, ih.2.1, .step ih.2.2 (h.queueStep (by omega))⟩

theorem orderlyCommands_queue (h : (orderlyCommands base len).Reachable s) :
    (orderly AdminQueue.subclass base len).Reachable s.c := by
  induction h with
  | start h => exact .start h.1
  | step hr h ih =>
    have hl := (commands_queue hr.of_restrict).1
    exact .step ih ⟨h.1.queueStep (by omega), h.2⟩

theorem admin_idle {c : Config AdminClient Unit} (h : (machine AdminQueue.subclass base len).Reachable c)
    (hs : c.stack = []) : c.q.activeCnt = 0 := by
  by_contra hn
  have hm := rest_held adminQueue_rouses h hs (by omega)
  have hp := admin_pending h
  rw [hs, List.countP_nil, List.length_eq_zero_iff] at hp
  change _ ∈ c.client.pending at hm
  rw [hp] at hm
  cases hm

theorem descAvail_eq_zero {q : QueueBase} (hl : 0 < q.len) (ha : q.activeCnt = 0) (hf : q.fetchCnt = 0) :
    q.descAvail = 0 := by
  have hn : q.nextIdx < q.len := Nat.mod_lt _ hl
  have hcap : ¬maxActiveCapacity ≤ 0 := by decide
  have hstay : ∀ m, (if q.nextIdx + m > q.len then q.len - q.nextIdx else m) = 0 → m = 0 := by
    intro m hm
    split at hm <;> omega
  rw [QueueBase.fetchCnt, ha, Nat.sub_zero, if_neg hcap] at hf
  have hm := hstay _ hf
  simp only [maxFetchCapacity, maxActiveDescs] at hm
  omega

theorem nextIdx_eq_tail {q : QueueBase} (hl : 0 < q.len) (hd : q.len ∣ 0x100000000) (ht : q.regTail < q.len)
    (ha : q.descAvail = 0) : q.nextIdx = q.regTail := by
  have hn : q.nextIdx < q.len := Nat.mod_lt _ hl
  have hle := Nat.le_of_dvd (by decide) hd
  rw [QueueBase.descAvail, sub32, Nat.mod_mod_of_dvd _ hd] at ha
  obtain ⟨m, hm⟩ := hd
  obtain ⟨k, hk⟩ := Nat.dvd_of_mod_eq_zero ha
  by_contra hne
  rcases Nat.lt_or_gt_of_ne hne with hlt | hlt
  · have h1 : q.len * m < q.len * k := by omega
    have h2 : q.len * k < q.len * (m + 1) := by rw [Nat.mul_succ]; omega
    have h3 := Nat.lt_of_mul_lt_mul_left h1
    have h4 := Nat.lt_of_mul_lt_mul_left h2
    omega
  · have h1 : q.len * k < q.len * m := by omega
    have h2 : q.len * m < q.len * (k + 1) := by rw [Nat.mul_succ]; omega
    have h3 := Nat.lt_of_mul_lt_mul_left h1
    have h4 := Nat.lt_of_mul_lt_mul_left h2
    omega

/-- Along a run: what was read is tracked, and the guest is never a whole ring ahead. -/
structure Underway (base len : ℕ) (s : Traced AdminClient Unit) : Prop where
  descLen : s.c.q.descLen = 32
  headed : Headed s.c
  traces : ∃ orig done, Traces tracking (fun _ => Completed) base len s orig done ∧ Once base len s.c s.posted done
  ahead : s.posted < s.seen.length + len

theorem tracking_done {s : Traced AdminClient Unit} (h : s.c.q.descLen = 32) :
    ∀ j o d data, o.length = s.c.q.descLen → tracking.done (slot maxActiveDescs j) o d data →
      Completed o d ∧ d.length = s.c.q.descLen := by
  intro j o d data ho hd
  have hc : Completed o d := hd (ho.trans h)
  exact ⟨hc, hc.length.trans h.symm⟩

theorem Underway.rest (h : Underway base len s) (hd : len ∣ 0x100000000) (hq : (machine AdminQueue.subclass base len).Reachable s.c)
    (hs : s.c.stack = []) : s.c.q.activeCnt = 0 ∧ s.seen.length = s.posted := by
  obtain ⟨orig, done, ht, ho⟩ := h.traces
  have hi := Inv.reachable hq
  have hl : 0 < s.c.q.len := Nat.lt_of_le_of_lt (Nat.zero_le _) hi.window.idx_lt
  have hlen := ho.ringed.len_eq
  have hcnt := admin_idle hq hs
  have hfetch : s.c.q.fetchCnt = 0 := by
    by_contra hn
    obtain ⟨x, hx, -⟩ := Fetching.reachable hq hn
    rw [hs] at hx
    cases hx
  have htail := ho.tail_eq
  have hnext : s.c.q.nextIdx = s.c.q.regTail := by
    refine nextIdx_eq_tail hl (hlen ▸ hd) ?_ (descAvail_eq_zero hl hcnt hfetch)
    rw [htail, hlen]
    exact Nat.mod_lt _ (hlen ▸ hl)
  rw [ho.ringed.nextIdx, htail, hcnt, Nat.add_zero] at hnext
  have hseen := ht.seen_eq
  have hposted := ho.posted_le
  have hahead := h.ahead
  refine ⟨hcnt, ?_⟩
  have hmod : (s.posted - done) % len = 0 := (Nat.modEq_iff_dvd' (by omega)).mp hnext |> Nat.mod_eq_zero_of_dvd
  rw [Nat.mod_eq_of_lt (by omega)] at hmod
  omega

theorem Underway.step (h : Underway base len s) (hd : len ∣ 0x100000000) (hq : (machine AdminQueue.subclass base len).Reachable s.c)
    (hs : TracedStep AdminQueue.subclass len len s s') : Underway base len s' := by
  have hi := Inv.reachable hq
  have hahead := h.ahead
  obtain ⟨orig, done, ht, ho⟩ := h.traces
  have hlt : len < 0x4000 := ho.ringed.len_eq ▸ hi.len_lt
  have hhead := h.headed.step hi (hs.queueStep (by omega))
  cases hs with
  | exec env cmd rest hs he =>
    obtain ⟨done', ho'⟩ := Once.exec hi rfl ho hs he
    obtain ⟨orig', done'', ht'⟩ := ht.exec hi rfl (tracking_done h.descLen) trivial (tracking_processes env _)
      (fun k _ => tracking_resumes env _ k) hs he
    obtain rfl := ringed_unique ho'.ringed ht'.wrote.ringed
    refine ⟨?_, hhead, ⟨orig', _, ht', ho'⟩, ?_⟩
    · exact (exec_descLen (c := { s.c with stack := rest }) hi.enabled he).trans h.descLen
    · dsimp only
      rw [List.length_append]
      omega
  | receive env x => exact x.elim
  | tail t htl hs =>
    obtain ⟨-, hseen⟩ := h.rest hd hq hs
    refine ⟨h.descLen, hhead, ⟨orig, done, ht.tail hi hs t _, ho.tail hi htl hs⟩, ?_⟩
    have := Nat.mod_lt (t + len - s.c.q.regTail) (show 0 < len by omega)
    dsimp only
    omega

theorem Underway.reachable (hd : len ∣ 0x100000000) (h : (commands base len).Reachable s) : Underway base len s := by
  induction h with
  | start h =>
    obtain ⟨he, hdl, hh, ht, hp, hs⟩ := h
    refine ⟨hdl, hh.trans he.first_idx.symm, ⟨fun _ => [], 0, Traces.start he hs, hp ▸ Once.start he ht⟩, ?_⟩
    rw [hp, hs]
    exact ht.trans_le (Nat.le_add_left _ _)
  | step hr h ih => exact ih.step hd (commands_queue hr).2.2 h

theorem answered_all {R : List UInt8 → List UInt8 → Prop} {seen ds : List (List UInt8)}
    (h : List.Forall₂ (Answered (fun _ => R) seen) (List.range seen.length) ds) : List.Forall₂ R seen ds := by
  have hlen := h.length_eq
  rw [List.length_range] at hlen
  rw [List.forall₂_iff_get] at h ⊢
  refine ⟨hlen, fun i h1 h2 => ?_⟩
  obtain ⟨o, ho, hR⟩ := h.2 i (by rwa [List.length_range]) h2
  have hi : (List.range seen.length).get ⟨i, by rwa [List.length_range]⟩ = i := by simp
  rw [hi, List.getElem?_eq_getElem h1, Option.some.injEq] at ho
  rw [List.get_eq_getElem, ho]
  exact hR

theorem Drained.reachable (hd : len ∣ 0x100000000) (h : (orderlyCommands base len).Reachable s)
    (hs : s.c.stack = []) : Drained base len s := by
  have hq := (commands_queue h.of_restrict).2.2
  have hi := Inv.reachable hq
  have hu := Underway.reachable hd h.of_restrict
  obtain ⟨hcnt, hseen⟩ := hu.rest hd hq hs
  obtain ⟨orig, done, ht, hon⟩ := hu.traces
  obtain ⟨done', ho⟩ := Order.reachable (orderlyCommands_queue h)
  have hdone : done = s.posted := by
    have := ht.seen_eq
    omega
  have hfetched := ht.wrote.ringed.fetched_eq
  rw [hu.descLen, hcnt, Nat.add_zero, hdone] at hfetched
  have hdone' : done' = s.posted := by
    have hf := ho.ordered.ringed.fetched_eq
    rw [hu.descLen, hcnt, Nat.add_zero, hfetched] at hf
    simpa [turns] using (congrArg List.length hf).symm
  have hu0 : underway s.c.stack = 0 := by rw [hs]; rfl
  refine ⟨hcnt, ?_, ?_, ?_, hfetched, ?_, ?_⟩
  · intro p
    exact hi.window.of_le_offset (by omega)
  · refine hu.headed.trans ?_
    rw [ht.wrote.ringed.first_eq, hon.tail_eq, hdone]
  · have hlog := ho.ordered.log
    have hf := firstUnprocessed_le s.c.q
    rwa [hu.descLen, hdone', show s.c.q.firstUnprocessed = 0 by omega, Nat.add_zero] at hlog
  · have hw := ht.wrote.written_eq
    rwa [hu.descLen, hu0, Nat.add_zero, hdone] at hw
  · have hback := ht.back
    rw [hu.descLen, hu0, Nat.add_zero, hdone, ← hseen] at hback
    exact answered_all hback

end

/-- Every tail write that comes to an end leaves the queue drained, and the order of execution is
kept by exactly the steps that meet the condition. -/
theorem commands_complete_in_order (base k : ℕ) :
    (∀ s, (orderlyCommands base (2 ^ k)).Reachable s → s.c.stack = [] → Drained base (2 ^ k) s) ∧
    ∀ s s', (orderlyCommands base (2 ^ k)).Reachable s → TracedStep AdminQueue.subclass (2 ^ k) (2 ^ k) s s' →
      (InOrder s'.c ↔ NoneOnItsWay s.c) := by
  constructor
  · intro s h hs
    have hlt := (commands_queue h.of_restrict).1
    have hk : k < 14 := (Nat.pow_lt_pow_iff_right (by decide : 1 < 2)).mp hlt
    have hd : 2 ^ k ∣ 0x100000000 := pow_dvd_pow 2 (show k ≤ 32 by omega)
    exact .reachable hd h hs
  · intro s s' h hs
    have hl := (commands_queue h.of_restrict).1
    exact step_inOrder_iff (orderlyCommands_queue h) (hs.queueStep (by omega))

def noneOnItsWay {σ κ : Type} (c : Config σ κ) : Bool :=
  match c.stack with
  | .processLoop i j :: _ =>
    !(i + j < c.q.activeCnt && c.q.stateAt (c.q.activeFirstPos + (i + j)) = .prepared) ||
      (List.range (i + j)).all fun k => c.q.stateAt (c.q.activeFirstPos + k) ≠ .fetching &&
        c.q.stateAt (c.q.activeFirstPos + k) ≠ .preparing
  | _ => true

theorem noneOnItsWay_sound {σ κ : Type} {c : Config σ κ} (h : noneOnItsWay c = true) : NoneOnItsWay c := by
  intro i j rest hs hlt hp k hk
  unfold noneOnItsWay at h
  rw [hs] at h
  simp only [hlt, hp, decide_true, Bool.and_self, Bool.not_true, Bool.false_or, List.all_eq_true, List.mem_range,
    Bool.and_eq_true, decide_eq_true_eq] at h
  exact h k hk

/-- Ring slot 0 asks for the MAC address; the other commands are empty. -/
def macMem : ℕ → UInt8
  | 0x1001 => 0x10 | 0x1002 => 0x07 | 0x1003 => 0x01 | 0x1004 => 8 | 0x101D => 0x20
  | _ => 0

def freshCommands : Traced AdminClient Unit := ⟨DescriptorOrder.adminRing, 0, []⟩

theorem freshCommands_start : (commands 0x1000 4).start freshCommands :=
  ⟨⟨rfl, rfl, rfl, by norm_num, by norm_num, rfl, rfl, rfl, fun _ => rfl, rfl, rfl, rfl⟩, rfl, rfl, by decide, rfl, rfl⟩

theorem observe_post {M : Machine (Traced AdminClient Unit)} {check : Config AdminClient Unit → Bool} {mem : ℕ → UInt8}
    {ts : List ℕ} (hM : ∀ a b, check a.c = true → TracedStep AdminQueue.subclass 4 4 a b → M.step a b)
    (hs : M.start freshCommands) {α : Type} {f : Traced AdminClient Unit → α} {a : α}
    (h : (post AdminQueue.subclass ⟨mem, fun _ _ => true, ⟨0, fun _ => 0⟩⟩ check 4 4 200 ts freshCommands).map f = some a) :
    ∃ s, M.Reachable s ∧ f s = a := by
  obtain ⟨s, hp, ha⟩ := Option.map_eq_some_iff.mp h
  exact ⟨s, reachable_post hM (.start hs) hp, ha⟩

theorem commands_complete_in_order_wraps :
    ∃ s, (orderlyCommands 0x1000 4).Reachable s ∧ s.c.stack = [] ∧ s.posted = 5 ∧ Drained 0x1000 4 s := by
  have hrun : (post AdminQueue.subclass ⟨macMem, fun _ _ => true, ⟨0, fun _ => 0⟩⟩ noneOnItsWay 4 4 200 [3, 1]
      freshCommands).map (fun s => (s.c.stack.isEmpty, s.posted)) = some (true, 5) := by decide +kernel
  obtain ⟨s, hr, hf⟩ := observe_post (M := orderlyCommands 0x1000 4)
    (fun a b hc h => ⟨h, noneOnItsWay_sound hc⟩) freshCommands_start hrun
  rw [Prod.mk.injEq, List.isEmpty_iff] at hf
  exact ⟨s, hr, hf.1, hf.2, (commands_complete_in_order 0x1000 2).1 s hr hf.1⟩

/-- With the data of slot 2 to be fetched, slot 0 is executed before slot 3. -/
theorem command_overtaken_at_ring_end :
    ∃ s, (commands 0x1000 4).Reachable s ∧ s.c.stack = [] ∧ s.posted = 5 ∧
      processes s.c.log = [(0, 0), (1, 1), (2, 2), (4, 0), (3, 3)] ∧ ¬Drained 0x1000 4 s := by
  have hrun : (post AdminQueue.subclass ⟨DescriptorOrder.wrapMem, fun _ _ => true, ⟨0, fun _ => 0⟩⟩ (fun _ => true) 4
      4 200 [2, 1] freshCommands).map (fun s => (s.c.stack.isEmpty, s.posted, processes s.c.log)) =
      some (true, 5, [(0, 0), (1, 1), (2, 2), (4, 0), (3, 3)]) := by decide +kernel
  obtain ⟨s, hr, hf⟩ := observe_post (M := commands 0x1000 4) (fun a b _ h => h) freshCommands_start hrun
  rw [Prod.mk.injEq, Prod.mk.injEq, List.isEmpty_iff] at hf
  obtain ⟨hs, hp, hlog⟩ := hf
  refine ⟨s, hr, hs, hp, hlog, fun h => ?_⟩
  have he := h.executed
  rw [hlog, hp] at he
  exact absurd he (by decide)

end Vmux.AdminCompletion
