import Mathlib.Tactic.Linarith

namespace Vmux

/-- `struct timespec`; nothing keeps `tv_nsec` below a second. -/
structure Timespec where
  sec : ℤ
  nsec : ℤ
deriving DecidableEq, Repr

namespace Timespec

def second : ℤ := 1000000000

def zero : Timespec := ⟨0, 0⟩

def ns (t : Timespec) : ℤ := t.sec * second + t.nsec

def Normal (t : Timespec) : Prop := 0 ≤ t.nsec ∧ t.nsec < second

/-- `Util::ts_before`. -/
def before (a b : Timespec) : Bool :=
  if a.sec > b.sec then false else decide (a.sec < b.sec) || decide (a.nsec < b.nsec)

/-- `tv_nsec += delay`, where `delay` is an `unsigned long`. -/
def addNsec (t : Timespec) (delay : ℕ) : Timespec := ⟨t.sec, (t.nsec + delay).bmod (2 ^ 64)⟩

variable {a b : Timespec}

theorem before_iff : a.before b = true ↔ a.sec < b.sec ∨ a.sec = b.sec ∧ a.nsec < b.nsec := by
  unfold before
  split
  · simp only [Bool.false_eq_true, false_iff]
    omega
  · simp only [Bool.or_eq_true, decide_eq_true_eq]
    omega

theorem before_iff_ns (ha : a.Normal) (hb : 0 ≤ b.nsec) (h : b.nsec < second ∨ a.sec ≤ b.sec) :
    a.before b = true ↔ a.ns < b.ns := by
  obtain ⟨h0, h1⟩ := ha
  simp only [before_iff, ns]
  simp only [second] at h1 h ⊢
  constructor
  · rintro (hs | ⟨hs, hn⟩)
    · omega
    · omega
  · intro hlt
    omega

theorem sec_le_of_ns_le (ha : a.Normal) (hb : b.Normal) (h : a.ns ≤ b.ns) : a.sec ≤ b.sec := by
  obtain ⟨h0, h1⟩ := ha
  obtain ⟨h2, h3⟩ := hb
  simp only [ns, second] at *
  omega

theorem addNsec_eq {delay : ℕ} (ha : a.Normal) (hd : delay < 2 ^ 62) :
    a.addNsec delay = ⟨a.sec, a.nsec + delay⟩ := by
  obtain ⟨h0, h1⟩ := ha
  simp only [second] at h1
  rw [addNsec, Int.bmod_eq_of_le]
  · omega
  · omega

end Timespec

end Vmux
