import Mathlib.Data.List.MinMax
import Vmux.Interrupts
import Vmux.Transitions

namespace Vmux.ThrottlerDeadline

open Transitions DescriptorQueue Interrupts

/-- The largest delay that `SignalInterrupt` asks for. -/
def maxDelay : ℕ := 2000 * 2 ^ 32

/-- A throttler, the last reading of the clock, and the deadlines, in nanoseconds, of the requests
made since it last sent an interrupt. -/
structure History where
  t : Throttler
  now : Timespec
  pending : List ℤ

inductive Input
  | request (now : Timespec) (mindelay : ℕ)
  | poll (now : Timespec)

/-- A call on an unmasked throttler, under a clock that does not go back. -/
inductive Step (s : History) : Input → History → Prop
  | request (now : Timespec) (mindelay : ℕ) (hu : s.t.guestUnmaskedIrq = true) (hn : now.Normal)
      (hc : s.now.ns ≤ now.ns) (hd : mindelay ≤ maxDelay) :
      Step s (.request now mindelay) ⟨s.t.tryInterrupt now mindelay, now, (now.ns + mindelay) :: s.pending⟩
  | poll (now : Timespec) (r : Triggered) (t' : Throttler) (sent : Bool) (hu : s.t.guestUnmaskedIrq = true)
      (hn : now.Normal) (hc : s.now.ns ≤ now.ns) (h : s.t.processPollTimer now r = .ok (t', sent)) :
      Step s (.poll now) ⟨t', now, if sent then [] else s.pending⟩

def Start (s : History) : Prop := (∃ idx, s.t = .fresh idx) ∧ s.now.Normal ∧ s.pending = []

def throttled : Machine History where
  start := Start
  step s s' := ∃ x, Step s x s'

/-- A request carries no nanoseconds into the next second and does not ask for time zero, or else it
is later than one that is pending. -/
def Clear (s : History) : Input → Prop
  | .request now mindelay =>
    (∃ x ∈ s.pending, x < now.ns + mindelay) ∨
      (now.nsec + mindelay < Timespec.second ∧ ¬(now = .zero ∧ mindelay = 0))
  | .poll _ => True

def clearThrottled : Machine History where
  start := Start
  step s s' := ∃ x, Step s x s' ∧ Clear s x

/-- A poll sends exactly if the earliest pending deadline is over, and then nothing is pending. -/
def Punctual (s : History) : Prop :=
  ∀ now r t' sent, now.Normal → s.now.ns ≤ now.ns → s.t.processPollTimer now r = .ok (t', sent) →
    (sent = true ↔ ∃ m, s.pending.min? = some m ∧ m < now.ns) ∧
    (sent = true → t'.pollTimer = .zero ∧ t'.armed = false)

theorem min?_lt_iff {l : List ℤ} {x : ℤ} : (∃ m, l.min? = some m ∧ m < x) ↔ ∃ y ∈ l, y < x := by
  constructor
  · rintro ⟨m, hm, hx⟩
    exact ⟨m, List.min?_mem hm, hx⟩
  · rintro ⟨y, hy, hx⟩
    cases hm : l.min? with
    | none =>
      rw [List.min?_eq_none_iff.mp hm] at hy
      cases hy
    | some m =>
      refine ⟨m, rfl, ?_⟩
      have hle := (List.min?_eq_some_iff.mp hm).2 y hy
      omega

/-- Nothing is pending, or the timer is set to the earliest pending deadline. -/
structure Scheduled (s : History) : Prop where
  now : s.now.Normal
  timer : (s.pending = [] ∧ s.t.armed = false ∧ s.t.pollTimer = .zero) ∨
    (s.t.armed = true ∧ s.t.pollTimer = s.t.time ∧ s.t.time ≠ .zero ∧ s.t.time.Normal ∧
      s.t.time.sec ≤ s.now.sec ∧ s.t.time.ns ∈ s.pending ∧ ∀ x ∈ s.pending, s.t.time.ns ≤ x)

variable {s s' : History} {now : Timespec} {mindelay : ℕ}

theorem addNsec_delay (hn : now.Normal) (hd : mindelay ≤ maxDelay) :
    now.addNsec mindelay = ⟨now.sec, now.nsec + mindelay⟩ := by
  apply Timespec.addNsec_eq hn
  have hmax : maxDelay < 2 ^ 62 := by decide
  omega

theorem addNsec_ns (hn : now.Normal) (hd : mindelay ≤ maxDelay) : (now.addNsec mindelay).ns = now.ns + mindelay := by
  rw [addNsec_delay hn hd]
  simp only [Timespec.ns]
  omega

theorem time_before_iff (hs : s.t.time.Normal) (hsec : s.t.time.sec ≤ s.now.sec) (hnow : s.now.Normal)
    (hn : now.Normal) (hc : s.now.ns ≤ now.ns) (hd : mindelay ≤ maxDelay) :
    s.t.time.before (now.addNsec mindelay) = true ↔ s.t.time.ns < now.ns + mindelay := by
  rw [← addNsec_ns hn hd]
  have hle := Timespec.sec_le_of_ns_le hnow hn hc
  have h0 := hn.1
  apply Timespec.before_iff_ns hs
  · rw [addNsec_delay hn hd]
    dsimp only
    omega
  · right
    rw [addNsec_delay hn hd]
    exact hsec.trans hle

theorem Scheduled.ignored (h : Scheduled s) (hn : now.Normal) (hc : s.now.ns ≤ now.ns) (hd : mindelay ≤ maxDelay)
    (hx : ∃ x ∈ s.pending, x < now.ns + mindelay) : s.t.tryInterrupt now mindelay = s.t := by
  obtain ⟨x, hx, hlt⟩ := hx
  rcases h.timer with ⟨hp, -⟩ | ⟨ha, -, -, hnorm, hsec, -, hmin⟩
  · rw [hp] at hx
    cases hx
  · have hb : s.t.time.before (now.addNsec mindelay) = true := by
      apply (time_before_iff hnorm hsec h.now hn hc hd).mpr
      have hle := hmin x hx
      omega
    unfold Throttler.tryInterrupt
    simp [ha, hb]

theorem Scheduled.stored (h : Scheduled s) (hu : s.t.guestUnmaskedIrq = true) (hn : now.Normal)
    (hc : s.now.ns ≤ now.ns) (hd : mindelay ≤ maxDelay) (hx : ¬∃ x ∈ s.pending, x < now.ns + mindelay) :
    s.t.tryInterrupt now mindelay = { s.t with
      armed := true, time := now.addNsec mindelay, pollTimer := now.addNsec mindelay } := by
  have hb : (s.t.armed && s.t.time.before (now.addNsec mindelay)) = false := by
    rcases h.timer with ⟨-, ha, -⟩ | ⟨-, -, -, hnorm, hsec, hmem, -⟩
    · rw [ha]
      rfl
    · rw [Bool.and_eq_false_iff]
      right
      apply eq_false_of_ne_true
      intro hb
      exact hx ⟨_, hmem, (time_before_iff hnorm hsec h.now hn hc hd).mp hb⟩
  unfold Throttler.tryInterrupt
  simp [hu, hb]

theorem Scheduled.request (h : Scheduled s) (hu : s.t.guestUnmaskedIrq = true) (hn : now.Normal)
    (hc : s.now.ns ≤ now.ns) (hd : mindelay ≤ maxDelay) (hg : Clear s (.request now mindelay)) :
    Scheduled ⟨s.t.tryInterrupt now mindelay, now, (now.ns + mindelay) :: s.pending⟩ := by
  refine ⟨hn, .inr ?_⟩
  by_cases hx : ∃ x ∈ s.pending, x < now.ns + mindelay
  · rw [h.ignored hn hc hd hx]
    obtain ⟨x, hmem, hlt⟩ := hx
    rcases h.timer with ⟨hp, -⟩ | ⟨ha, ht, hz, hnorm, hsec, hin, hmin⟩
    · rw [hp] at hmem
      cases hmem
    · refine ⟨ha, ht, hz, hnorm, hsec.trans (Timespec.sec_le_of_ns_le h.now hn hc), List.mem_cons_of_mem _ hin, ?_⟩
      intro y hy
      rcases List.mem_cons.mp hy with rfl | hy
      · exact (hmin x hmem).trans hlt.le
      · exact hmin y hy
  · obtain ⟨hcarry, hzero⟩ := hg.resolve_left hx
    rw [h.stored hu hn hc hd hx]
    have h0 := hn.1
    refine ⟨rfl, rfl, ?_, ?_, ?_, ?_, ?_⟩
    · dsimp only
      rw [addNsec_delay hn hd]
      intro he
      obtain ⟨hsec, hnsec⟩ := Timespec.mk.inj he
      have hz : now.nsec = 0 := by omega
      have hm : mindelay = 0 := by omega
      apply hzero
      constructor
      · cases now
        dsimp only at hsec hz
        rw [hsec, hz]
        rfl
      · exact hm
    · dsimp only
      rw [addNsec_delay hn hd]
      constructor
      · dsimp only
        omega
      · exact hcarry
    · dsimp only
      rw [addNsec_delay hn hd]
    · dsimp only
      rw [addNsec_ns hn hd]
      exact List.mem_cons_self
    · intro y hy
      dsimp only
      rw [addNsec_ns hn hd]
      rcases List.mem_cons.mp hy with rfl | hy
      · exact le_refl _
      · apply not_lt.mp
        intro hlt
        exact hx ⟨y, hy, hlt⟩

theorem Scheduled.expired_iff (h : Scheduled s) (hn : now.Normal) :
    s.t.expired now = true ↔ ∃ x ∈ s.pending, x < now.ns := by
  rw [Throttler.expired_iff]
  rcases h.timer with ⟨hp, -, hz⟩ | ⟨-, ht, hz, hnorm, -, hin, hmin⟩
  · rw [hp, hz]
    simp
  · rw [ht, Timespec.before_iff_ns hnorm hn.1 (.inl hn.2)]
    constructor
    · rintro ⟨-, hlt⟩
      exact ⟨_, hin, hlt⟩
    · rintro ⟨x, hx, hlt⟩
      have hle := hmin x hx
      exact ⟨hz, by omega⟩

theorem Scheduled.poll {r : Triggered} {t' : Throttler} {sent : Bool} (h : Scheduled s) (hn : now.Normal)
    (hc : s.now.ns ≤ now.ns) (hp : s.t.processPollTimer now r = .ok (t', sent)) :
    Scheduled ⟨t', now, if sent then [] else s.pending⟩ := by
  rcases Throttler.processPollTimer_cases hp with ⟨-, hsent, hz, ha, -⟩ | ⟨-, hsent, rfl⟩
  · rw [hsent]
    exact ⟨hn, .inl ⟨rfl, ha, hz⟩⟩
  · rw [hsent]
    refine ⟨hn, ?_⟩
    rcases h.timer with ht | ⟨ha, ht, hz, hnorm, hsec, hin, hmin⟩
    · exact .inl ht
    · exact .inr ⟨ha, ht, hz, hnorm, hsec.trans (Timespec.sec_le_of_ns_le h.now hn hc), hin, hmin⟩

theorem Scheduled.reachable (h : clearThrottled.Reachable s) : Scheduled s := by
  induction h with
  | start h =>
    obtain ⟨⟨idx, ht⟩, hn, hp⟩ := h
    exact ⟨hn, .inl ⟨hp, by rw [ht]; rfl, by rw [ht]; rfl⟩⟩
  | step _ h ih =>
    obtain ⟨x, hs, hg⟩ := h
    cases hs with
    | request now mindelay hu hn hc hd => exact ih.request hu hn hc hd hg
    | poll now r t' sent hu hn hc hp => exact ih.poll hn hc hp

theorem Scheduled.punctual (h : Scheduled s) : Punctual s := by
  intro now r t' sent hn hc hp
  rw [min?_lt_iff, ← h.expired_iff hn]
  rcases Throttler.processPollTimer_cases hp with ⟨he, hsent, hz, ha, -⟩ | ⟨he, hsent, -⟩
  · rw [he, hsent]
    exact ⟨Iff.rfl, fun _ => ⟨hz, ha⟩⟩
  · rw [he, hsent]
    exact ⟨Iff.rfl, fun h => nomatch h⟩

/-- A request that carries is sent at the start of the next second, and one for time zero never. -/
theorem Scheduled.not_punctual (h : Scheduled s) (hu : s.t.guestUnmaskedIrq = true) (hn : now.Normal)
    (hc : s.now.ns ≤ now.ns) (hd : mindelay ≤ maxDelay) (hg : ¬Clear s (.request now mindelay)) :
    ¬Punctual ⟨s.t.tryInterrupt now mindelay, now, (now.ns + mindelay) :: s.pending⟩ := by
  have hx : ¬∃ x ∈ s.pending, x < now.ns + mindelay := fun hx => hg (.inl hx)
  rw [h.stored hu hn hc hd hx, addNsec_delay hn hd]
  intro hp
  obtain ⟨h0, h1⟩ := hn
  simp only [Timespec.second] at h1
  by_cases hcarry : now.nsec + mindelay < Timespec.second
  · obtain ⟨hnow, hm⟩ : now = .zero ∧ mindelay = 0 := not_not.mp fun hz => hg (.inr ⟨hcarry, hz⟩)
    subst hnow hm
    have hn1 : Timespec.Normal ⟨1, 0⟩ := ⟨le_refl _, by decide⟩
    obtain ⟨t', ht'⟩ := Throttler.processPollTimer_ok { s.t with
      armed := true, time := Timespec.zero, pollTimer := Timespec.zero } ⟨1, 0⟩
    have hiff := (hp ⟨1, 0⟩ .ok t' _ hn1 (show Timespec.zero.ns ≤ _ by decide) ht').1
    rw [min?_lt_iff] at hiff
    have hsend := hiff.mpr ⟨_, List.mem_cons_self, by decide⟩
    rw [Throttler.expired_iff] at hsend
    exact hsend.1 rfl
  · have hn1 : Timespec.Normal ⟨now.sec + 1, 0⟩ := ⟨le_refl _, show (0 : ℤ) < Timespec.second by decide⟩
    simp only [Timespec.second] at hcarry
    obtain ⟨t', ht'⟩ := Throttler.processPollTimer_ok { s.t with
      armed := true, time := ⟨now.sec, now.nsec + mindelay⟩, pollTimer := ⟨now.sec, now.nsec + mindelay⟩ }
        ⟨now.sec + 1, 0⟩
    have hle : now.ns ≤ Timespec.ns ⟨now.sec + 1, 0⟩ := by
      simp only [Timespec.ns, Timespec.second]
      omega
    have hiff := (hp ⟨now.sec + 1, 0⟩ .ok t' _ hn1 hle ht').1
    rw [min?_lt_iff, Throttler.expired_iff, Timespec.before_iff] at hiff
    have hset : (⟨now.sec, now.nsec + mindelay⟩ : Timespec) ≠ .zero := by
      intro hz
      have hns := congrArg Timespec.nsec hz
      simp only [Timespec.zero] at hns
      omega
    obtain ⟨x, hmem, hlt⟩ := hiff.mp ⟨hset, .inl (lt_add_one now.sec)⟩
    have hge : now.ns + mindelay ≤ x := by
      rcases List.mem_cons.mp hmem with rfl | hmem
      · exact le_refl _
      · exact not_lt.mp fun hlt => hx ⟨x, hmem, hlt⟩
    simp only [Timespec.ns, Timespec.second] at hge hlt
    omega

/-- If every request is clear the throttler is punctual, and exactly the clear requests keep it so. -/
theorem throttler_punctual (s : History) (h : clearThrottled.Reachable s) :
    Punctual s ∧ ∀ x s', Step s x s' → (Punctual s' ↔ Clear s x) := by
  have hs := Scheduled.reachable h
  refine ⟨hs.punctual, fun x s' hstep => ⟨fun hp => ?_, fun hg => ?_⟩⟩
  · cases hstep with
    | request now mindelay hu hn hc hd =>
      by_contra hg
      exact hs.not_punctual hu hn hc hd hg hp
    | poll now r t' sent hu hn hc hp => trivial
  · exact (Scheduled.reachable (.step h ⟨x, hstep, hg⟩)).punctual

def requested (now : Timespec) (mindelay : ℕ) : History :=
  ⟨(Throttler.fresh 0).tryInterrupt now mindelay, now, [now.ns + mindelay]⟩

theorem step_requested {mindelay : ℕ} (hn : now.Normal) (hd : mindelay ≤ maxDelay) :
    Step ⟨.fresh 0, now, []⟩ (.request now mindelay) (requested now mindelay) :=
  .request now mindelay rfl hn (le_refl _) hd

theorem throttler_punctual_in_second : clearThrottled.Reachable (requested ⟨5, 0⟩ 2000) ∧
    Punctual (requested ⟨5, 0⟩ 2000) := by
  have hn : Timespec.Normal ⟨5, 0⟩ := ⟨by decide, by decide⟩
  have hstart : clearThrottled.Reachable ⟨.fresh 0, ⟨5, 0⟩, []⟩ := .start ⟨⟨0, rfl⟩, hn, rfl⟩
  have hclear : Clear ⟨.fresh 0, ⟨5, 0⟩, []⟩ (.request ⟨5, 0⟩ 2000) := .inr ⟨by decide, by decide⟩
  have hr : clearThrottled.Reachable (requested ⟨5, 0⟩ 2000) :=
    .step hstart ⟨_, step_requested hn (by decide), hclear⟩
  exact ⟨hr, (throttler_punctual _ hr).1⟩

/-- Requested one nanosecond before second 6 with a delay of 2000 ns, sent at second 6. -/
theorem sent_before_deadline : ∃ s, throttled.Reachable s ∧ s.pending = [6000001999] ∧
    (s.t.processPollTimer ⟨6, 0⟩ .ok).toOption.map (·.2) = some true ∧ ¬Punctual s := by
  have hn : Timespec.Normal ⟨5, 999999999⟩ := ⟨by decide, by decide⟩
  have hr : throttled.Reachable (requested ⟨5, 999999999⟩ 2000) :=
    .step (.start ⟨⟨0, rfl⟩, hn, rfl⟩) ⟨_, step_requested hn (by decide)⟩
  refine ⟨_, hr, by decide, by decide, fun hp => ?_⟩
  obtain ⟨t', ht'⟩ := Throttler.processPollTimer_ok (requested ⟨5, 999999999⟩ 2000).t ⟨6, 0⟩
  have hiff := (hp ⟨6, 0⟩ .ok t' _ ⟨by decide, by decide⟩ (by decide) ht').1
  obtain ⟨m, hm, hlt⟩ := hiff.mp (by decide)
  have hmin : (requested ⟨5, 999999999⟩ 2000).pending.min? = some 6000001999 := by decide
  rw [hmin] at hm
  cases hm
  exact absurd hlt (by decide)

end Vmux.ThrottlerDeadline
