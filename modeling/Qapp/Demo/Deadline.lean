import Qapp.Spi.Port

/-!
# Deadlines of the demo and its platform

The wait for the end of a DMA transfer, and the loop of a burst that lasts for some seconds.
-/

namespace Qapp.Demo
open Ticks
open Spi.Port (dmaWait)

/-- The seconds that `ring_send_burst` accepts. -/
structure Duration where
  sec : UInt32
  valid : 0 < sec ∧ sec ≤ 360000

/-- `duration_sec * 1000`. -/
def Duration.ms (d : Duration) : UInt32 := d.sec * 1000

/-- The main loop of `burst_test_thread` in `BURST_MODE_TIME`: a round is done if `running` is
false at its start, and sends a packet if the time is not up. -/
def burstLoop (startTime : UInt32) (d : Duration) (rounds : List Poll) : Option (PollEnd × Nat) :=
  pollUntil (fun now => startTime + d.ms ≤ now) rounds

/-- The milliseconds are the seconds: the product does not wrap. -/
theorem Duration.ms_toNat (d : Duration) : d.ms.toNat = d.sec.toNat * 1000 := by
  have small := UInt32.le_iff_toNat_le.mp d.valid.2
  change d.sec.toNat ≤ 360000 at small
  rw [Duration.ms, UInt32.toNat_mul]
  exact Nat.mod_eq_of_lt (by change d.sec.toNat * 1000 < _; omega)

/-- The wait gives up after 1000 ms and no later than the first reading beyond them, exactly
if the readings wrap as the deadline does. The burst lasts its seconds exactly if its end
does not wrap, or every reading has. -/
theorem deadlines_iff (start : UInt32) (polls : List Poll) (startTime : UInt32) (d : Duration)
    (rounds : List Poll) :
    (EndsLate start 1000 polls (dmaWait start polls) ∧
        EndsPromptly start 1000 polls (dmaWait start polls) ↔ SameSide start 1000 polls) ∧
      (EndsLate startTime d.ms rounds (burstLoop startTime d rounds) ↔
        startTime.toNat + d.sec.toNat * 1000 < 2 ^ 32 ∨ Wrapped startTime d.ms rounds) := by
  rw [← d.ms_toNat]
  exact ⟨beyond_timely_iff start 1000 polls, reached_late_iff startTime d.ms rounds⟩

/-- A wait that starts half a second before the counter wraps gives up at once. -/
theorem deadlines_near_wrap : ¬∀ start polls startTime d rounds,
    (EndsLate start 1000 polls (dmaWait start polls) ∧
      EndsPromptly start 1000 polls (dmaWait start polls)) ∧
    EndsLate startTime d.ms rounds (burstLoop startTime d rounds) := by
  intro all
  have late := (all 4294966796 [⟨false, 4294966796⟩] 0 ⟨1, by decide⟩ []).1.1
  exact absurd (late [] ⟨false, 4294966796⟩ [] rfl rfl) (by decide)

end Qapp.Demo
