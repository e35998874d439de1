import Qapp.Lib.ByteMem

/-!
# The broadcast filter in power save

`wakeup_cb_bcmc_filter_dtim` on a received frame, with the bytes it reads. Behind the MAC
header of 24 bytes are the LLC/SNAP header of 8 and, for IPv4, headers of the network.
-/

namespace Qapp.Bmps
open ByteMem

/-- The place of every byte that has been read. -/
abbrev Reading := StateM (List Nat)

/-- One byte of `wifi_frame`. -/
def readByte (frame : Mem) (i : Nat) : Reading UInt8 := fun reads => (frame i, reads ++ [i])

/-- The loop over `udp_whitelist_arr`. -/
def whitelisted (whitelist : List Nat) (dstPort : Nat) : Bool :=
  whitelist.any fun port => port ≠ 0 && dstPort = port

/-- `ntohs`. -/
def port16 (high low : UInt8) : Nat := high.toNat * 256 + low.toNat

/-- From `src_port` on, the fields of the UDP header at a fixed place. -/
def filterUdp (whitelist : List Nat) (frame : Mem) : Reading Bool := do
  let _ ← readByte frame 52
  let _ ← readByte frame 53
  let high ← readByte frame 54
  let low ← readByte frame 55
  pure (whitelisted whitelist (port16 high low))

/-- The IPv4 header is read at `proto` only. -/
def filterIp (whitelist : List Nat) (frame : Mem) : Reading Bool := do
  let proto ← readByte frame 41
  if proto ≠ 17 then pure true else filterUdp whitelist frame

/-- `wakeup_cb_bcmc_filter_dtim`. -/
def wakeupCbBcmcFilterDtim (whitelist : List Nat) (bmCast : Bool) (frame : Mem) (len : Nat) :
    Reading Bool := do
  if !bmCast then pure true
  else if len < 24 + 8 then pure false
  else
    let high ← readByte frame 30
    if high ≠ 0x08 then pure true
    else
      let low ← readByte frame 31
      if low ≠ 0x00 then pure true else filterIp whitelist frame

/-- A call on a broadcast or multicast frame, with what it has read. -/
def filtered (whitelist : List Nat) (frame : Mem) (len : Nat) : Bool × List Nat :=
  (wakeupCbBcmcFilterDtim whitelist true frame len).run []

/-! ## What frames say -/

section Frame
variable (frame : Mem) (len : Nat)

/-- The EtherType of IPv4. -/
def Ipv4 : Prop := frame 30 = 0x08 ∧ frame 31 = 0x00

/-- The protocol number of UDP. -/
def Udp : Prop := frame 41 = 17

/-- Four bytes for each unit of IHL. -/
def headerLength : Nat := (frame 32).toNat % 16 * 4

/-- The port two bytes into a UDP header. -/
def dstPort (udp : Nat) : Nat := port16 (frame (udp + 2)) (frame (udp + 3))

/-- Every header that is announced is there, an IPv4 header of 20 bytes or more. -/
def Complete : Prop :=
  32 ≤ len ∧ (Ipv4 frame → 20 ≤ headerLength frame ∧ 32 + headerLength frame ≤ len ∧
    (Udp frame → 32 + headerLength frame + 8 ≤ len))

/-- What shall wake the host. -/
def Wakes (whitelist : List Nat) : Prop :=
  Ipv4 frame → Udp frame →
    ∃ port ∈ whitelist, port ≠ 0 ∧ dstPort frame (32 + headerLength frame) = port

/-- The filter reads no byte behind the frame, and wakes the host on the right ones. -/
structure Filters (whitelist : List Nat) (frame : Mem) (len : Nat) : Prop where
  inside : ∀ i ∈ (filtered whitelist frame len).2, i < len
  wakes : Complete frame len → ((filtered whitelist frame len).1 = true ↔ Wakes frame whitelist)

/-- The frame is long enough for what is read, and where the header has options, the bytes
that are taken for the port are listed as the port is. -/
structure Readable (whitelist : List Nat) (frame : Mem) (len : Nat) : Prop where
  long : 32 ≤ len → Ipv4 frame → 42 ≤ len ∧ (Udp frame → 56 ≤ len)
  port : Complete frame len → Ipv4 frame → Udp frame → headerLength frame = 20 ∨
    (whitelisted whitelist (dstPort frame 52) ↔
      whitelisted whitelist (dstPort frame (32 + headerLength frame)))

end Frame

/-! ## What is read -/

variable {whitelist : List Nat} {frame : Mem} {len : Nat}

theorem whitelisted_iff {dst : Nat} :
    whitelisted whitelist dst ↔ ∃ port ∈ whitelist, port ≠ 0 ∧ dst = port := by
  simp [whitelisted]

theorem filtered_short (short : len < 32) : filtered whitelist frame len = (false, []) := by
  simp only [filtered, wakeupCbBcmcFilterDtim, Bool.not_true, Bool.false_eq_true, if_false,
    if_pos short]
  rfl

/-- Everything behind the length check. -/
theorem filtered_long (long : 32 ≤ len) : filtered whitelist frame len =
    if frame 30 ≠ 0x08 then (true, [30])
    else if frame 31 ≠ 0x00 then (true, [30, 31])
    else if frame 41 ≠ 17 then (true, [30, 31, 41])
    else (whitelisted whitelist (dstPort frame 52), [30, 31, 41, 52, 53, 54, 55]) := by
  simp only [filtered, wakeupCbBcmcFilterDtim, Bool.not_true, Bool.false_eq_true, if_false,
    if_neg (Nat.not_lt.mpr long), filterIp, filterUdp, dstPort]
  by_cases high : frame 30 = 0x08 <;> by_cases low : frame 31 = 0x00 <;>
    by_cases proto : frame 41 = 17 <;>
    simp [readByte, high, low, proto, StateT.run, bind, StateT.bind, pure] <;> rfl

theorem filtered_other (long : 32 ≤ len) (other : ¬Ipv4 frame) :
    (filtered whitelist frame len).1 = true ∧ ∀ i ∈ (filtered whitelist frame len).2, i < len := by
  rw [filtered_long long]
  split
  next => simp; omega
  next high =>
    rw [if_pos fun low => other ⟨not_not.mp high, low⟩]
    simp
    omega

theorem filtered_ipv4 (long : 32 ≤ len) (ipv4 : Ipv4 frame) (other : ¬Udp frame) :
    filtered whitelist frame len = (true, [30, 31, 41]) := by
  rw [filtered_long long, if_neg (not_not.mpr ipv4.1), if_neg (not_not.mpr ipv4.2)]
  exact if_pos other

theorem filtered_udp (long : 32 ≤ len) (ipv4 : Ipv4 frame) (udp : Udp frame) :
    filtered whitelist frame len =
      (whitelisted whitelist (dstPort frame 52), [30, 31, 41, 52, 53, 54, 55]) := by
  rw [filtered_long long, if_neg (not_not.mpr ipv4.1), if_neg (not_not.mpr ipv4.2)]
  exact if_neg (not_not.mpr udp)

/-- The filter is right on a frame exactly if the frame is readable. -/
theorem filters_iff (whitelist : List Nat) (frame : Mem) (len : Nat) :
    Filters whitelist frame len ↔ Readable whitelist frame len := by
  constructor
  · rintro ⟨inside, wakes⟩
    constructor
    · intro long ipv4
      by_cases udp : Udp frame
      · rw [filtered_udp long ipv4 udp] at inside
        have last := inside 55 (by simp)
        exact ⟨by omega, fun _ => last⟩
      · rw [filtered_ipv4 long ipv4 udp] at inside
        exact ⟨inside 41 (by simp), fun h => absurd h udp⟩
    · intro complete ipv4 udp
      have wakes := wakes complete
      rw [filtered_udp complete.1 ipv4 udp] at wakes
      refine .inr (wakes.trans ?_)
      rw [whitelisted_iff]
      exact ⟨fun h => h ipv4 udp, fun h _ _ => h⟩
  · rintro ⟨long, port⟩
    constructor
    · by_cases short : len < 32
      · rw [filtered_short short]
        simp
      rw [Nat.not_lt] at short
      by_cases ipv4 : Ipv4 frame
      · obtain ⟨proto, ports⟩ := long short ipv4
        by_cases udp : Udp frame
        · have := ports udp
          rw [filtered_udp short ipv4 udp]
          simp
          omega
        · rw [filtered_ipv4 short ipv4 udp]
          simp
          omega
      · exact (filtered_other short ipv4).2
    · intro complete
      by_cases ipv4 : Ipv4 frame
      · by_cases udp : Udp frame
        · rw [filtered_udp complete.1 ipv4 udp]
          have same : whitelisted whitelist (dstPort frame 52) ↔
              whitelisted whitelist (dstPort frame (32 + headerLength frame)) := by
            obtain plain | same := port complete ipv4 udp
            · rw [plain]
            · exact same
          rw [same, whitelisted_iff]
          exact ⟨fun h _ _ => h, fun h => h ipv4 udp⟩
        · rw [filtered_ipv4 complete.1 ipv4 udp]
          exact ⟨fun _ _ h => absurd h udp, fun _ => rfl⟩
      · exact ⟨fun _ h => absurd h ipv4, fun _ => (filtered_other complete.1 ipv4).1⟩

/-- A frame that ends with its EtherType. -/
def truncated : Mem := fun i => if i = 30 then 0x08 else 0

theorem truncated_read_outside : ¬∀ whitelist frame len, Filters whitelist frame len := by
  intro filters
  have proto := (filters [7777, 0, 0, 0] truncated 32).inside 41 (by decide)
  exact absurd proto (by decide)

end Qapp.Bmps
