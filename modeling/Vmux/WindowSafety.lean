import Vmux.AdminQueue
import Vmux.LanRx
import Vmux.LanTx
import Vmux.QueueRuns

namespace Vmux.WindowSafety

open Bytes CircularWindow Transitions DescriptorQueue

/-- The window is well formed, and the command that runs next fails none of its state assertions. -/
def Sound {ε ι σ κ : Type} (S : Subclass ε ι σ κ) (c : Config σ κ) : Prop :=
  Window c.q ∧ ¬Faults S c .stateAssertion

theorem Sound.reachable {ε ι σ κ : Type} {S : Subclass ε ι σ κ} {base len : ℕ} {c : Config σ κ}
    (h : (machine S base len).Reachable c) : Sound S c :=
  have hi := Inv.reachable h
  ⟨hi.window, hi.no_assertion⟩

theorem window_sound (base len : ℕ) :
    (∀ c, (machine AdminQueue.subclass base len).Reachable c → Sound AdminQueue.subclass c) ∧
      (∀ c, (machine LanRx.subclass base len).Reachable c → Sound LanRx.subclass c) ∧
      ∀ c, (machine LanTx.subclass base len).Reachable c → Sound LanTx.subclass c :=
  ⟨fun _ => Sound.reachable, fun _ => Sound.reachable, fun _ => Sound.reachable⟩

def rxStart : Config LanRx.RxClient LanRx.RxPacket := Config.enabled 0x1000 3 32 ⟨[], 2048, 0, 0, false⟩

/-- Two descriptors of a receive ring wait in the window for a packet. -/
theorem window_sound_waiting :
    ∃ c, (machine LanRx.subclass 0x1000 3).Reachable c ∧ c.q.activeCnt = 2 ∧ c.client.dcache = [0, 1] ∧
      Sound LanRx.subclass c := by
  have hrun : (tailWrites LanRx.subclass ⟨fun _ => 0, fun _ _ => true, ⟨fun _ => 0, 0, fun _ => 0⟩⟩ 40 [2]
      rxStart).toOption.map (fun c => (c.q.activeCnt, c.client.dcache)) = some (2, [0, 1]) := by decide +kernel
  have hstart : (machine LanRx.subclass 0x1000 3).Reachable rxStart :=
    Reachable.enabled 32 (by norm_num) (by norm_num) rfl
  obtain ⟨c, hc, hf⟩ := Reachable.observe (fun _ _ h => h) hstart (by simp) hrun
  rw [Prod.mk.injEq] at hf
  exact ⟨c, hc, hf.1, hf.2, (window_sound 0x1000 3).2.1 c hc⟩

end Vmux.WindowSafety
