import Qapp.Ring.Remote

/-!
# The length of a message on its way

`ring_send` checks a `size_t` length against the buffer size of the control block, stores it
in 16 bits of the descriptor and hands it to a transport that keeps 16 bits of it.
-/

namespace Qapp.RingHost
open ByteMem
open Spi (Served Fetches Delivers Refused qcspiTransportWrite)

/-- What a call of `ring_send` that returns 0 is for. -/
structure Kept (s : Shared) (ringId : Nat) (data : List UInt8) (m : Mem) : Prop where
  bytes : load m (s.txBuf ringId (s.cache .txWrIdx ringId)) data.length = data
  length : leNat (load m (s.txDesc ringId (s.cache .txWrIdx ringId) + 4) 2) = data.length

/-- The places a send of so many bytes writes to. -/
structure SlotApart (s : Shared) (ringId len : Nat) : Prop where
  buf_lt : s.txBuf ringId (s.cache .txWrIdx ringId) + len ≤ 2 ^ 32
  desc_lt : s.txDesc ringId (s.cache .txWrIdx ringId) + 8 ≤ 2 ^ 32
  idx_lt : s.idxAddr .txWrIdx ringId + 4 ≤ 2 ^ 32
  buf_desc : s.txBuf ringId (s.cache .txWrIdx ringId) + len ≤ s.txDesc ringId (s.cache .txWrIdx ringId) ∨
    s.txDesc ringId (s.cache .txWrIdx ringId) + 8 ≤ s.txBuf ringId (s.cache .txWrIdx ringId)
  buf_idx : s.txBuf ringId (s.cache .txWrIdx ringId) + len ≤ s.idxAddr .txWrIdx ringId ∨
    s.idxAddr .txWrIdx ringId + 4 ≤ s.txBuf ringId (s.cache .txWrIdx ringId)
  desc_idx : s.txDesc ringId (s.cache .txWrIdx ringId) + 8 ≤ s.idxAddr .txWrIdx ringId ∨
    s.idxAddr .txWrIdx ringId + 4 ≤ s.txDesc ringId (s.cache .txWrIdx ringId)

section Send
variable {s : Shared} {ringId : Nat} {data : List UInt8} {m m' : Mem}

/-- The field has 16 bits. -/
theorem Kept.length_lt (kept : Kept s ringId data m) : data.length < 2 ^ 16 := by
  rw [← kept.length]
  have := leNat_lt (load m (s.txDesc ringId (s.cache .txWrIdx ringId) + 4) 2)
  rwa [length_load] at this

theorem transport_write_short {addr : Nat} {bytes : List Nat} (short : bytes.length < 2 ^ 16)
    (fits : addr + bytes.length ≤ 2 ^ 32)
    (run : (qcspiTransportWrite true addr (some (fromBytes bytes)) bytes.length).Runs Served m
      (.ok ()) m') : m' = store m addr (bytes.map UInt8.ofNat) := by
  obtain ⟨_, driver⟩ := Spi.qcspiTransportWrite_ok run
  rw [Nat.mod_eq_of_lt short] at driver
  rw [← load_fromBytes]
  exact Spi.qcspiWriteAddrAlign_ok (driver.mono fun _ _ _ _ h => h.remote) short fits

theorem length_wordBytes (v : Nat) : (wordBytes v).length = 4 := rfl

theorem length_descBytes (d : Desc) : (descBytes d).length = 8 := rfl

theorem Wrote.kept (wrote : Wrote Served s ringId data m m') (short : data.length < 2 ^ 16)
    (apart : SlotApart s ringId data.length) : Kept s ringId data m' := by
  obtain ⟨m₁, m₂, filled, described, published⟩ := wrote
  have same : (data.map UInt8.toNat).length = data.length := List.length_map _
  rw [← same] at filled
  have h₁ := transport_write_short (by rwa [same]) (by rw [same]; exact apart.buf_lt) filled
  have h₂ := transport_write_short (by rw [length_descBytes]; decide) apart.desc_lt described
  have h₃ := transport_write_short (by rw [length_wordBytes]; decide) apart.idx_lt published
  rw [map_ofNat_toNat] at h₁
  rw [map_descBytes, Nat.mod_eq_of_lt short] at h₂
  rw [map_wordBytes] at h₃
  have := apart.buf_desc
  have := apart.buf_idx
  have := apart.desc_idx
  constructor
  · rw [h₃, load_store_disjoint _ (by rw [length_leBytes]; omega), h₂,
      load_store_disjoint _ (by simp; omega), h₁, load_store_same]
  · rw [h₃, load_store_disjoint _ (by rw [length_leBytes]; omega), h₂,
      load_store_inside _ _ (by simp), List.append_assoc, List.drop_left' (length_leBytes _ _),
      List.take_left' (length_leBytes _ _), leNat_leBytes, Nat.mod_eq_of_lt (by simpa using short)]

end Send

/-- A call of `ring_send` that returns 0 loses nothing of a length below 2¹⁶ and always
something of a longer one; a transfer is complete exactly when its length fits in 16 bits, or
what is left of it is refused. -/
theorem lengths_kept_iff {b b' : Board} {ringId : Nat} {data : List UInt8}
    (run : (ringSend ringId (some data)).Runs (Does Served) b (.ok ()) b') {addr len : Nat}
    (fits : addr + len % 2 ^ 16 ≤ 2 ^ 32) :
    (Kept b.shared ringId data b'.mem → data.length < 2 ^ 16) ∧
    (data.length < 2 ^ 16 → SlotApart b.shared ringId data.length →
      Kept b.shared ringId data b'.mem) ∧
    (Fetches addr len ↔ len < 2 ^ 16 ∨ Refused addr (len % 2 ^ 16)) ∧
    (Delivers addr len ↔ len < 2 ^ 16 ∨ Refused addr (len % 2 ^ 16)) := by
  obtain ⟨m, wrote⟩ := ringSend_wrote run
  exact ⟨Kept.length_lt, wrote.kept, Spi.fetches_iff fits, Spi.delivers_iff fits⟩

/-- One ring of two descriptors, each with a buffer of 65540 bytes. -/
def wideRing : Board where
  shared := ⟨true, 1, 0x9fc00, fun f _ => match f with
    | .ringStatus => statusValid
    | .txDescCount => 2
    | .txBufSize => 65540
    | .txDescBase => 0x1000
    | .txBufBase => 0x10000
    | _ => 0, []⟩
  mem := fun _ => 0
  data := fun _ => 0

theorem wideRing_open : wideRing.shared.Open 0 := by constructor <;> decide

theorem wideRing_hasSpace : wideRing.shared.HasSpace 0 := by constructor <;> decide

theorem exec_served {α : Type} (p : Host α) (b : Board) :
    p.Runs (Does Served) b (p.exec serve b).1 (p.exec serve b).2 :=
  (Script.runs_exec (serve_does false) p b).mono fun _ _ _ _ h =>
    h.mono fun _ _ _ _ h => h.served

theorem wideRing_sends {data : List UInt8} (nonempty : data.length ≠ 0)
    (fits : data.length ≤ 65540) (taken : ¬Refused 0x10000 (data.length % 2 ^ 16)) :
    (ringSend 0 (some data)).Runs (Does Served) wideRing (.ok ())
      ((ringSend 0 (some data)).exec serve wideRing).2 := by
  have ok := ringSend_returns wideRing_open nonempty fits wideRing_hasSpace taken
    (Script.runs_exec (serve_does false) _ _)
  have run := exec_served (ringSend 0 (some data)) wideRing
  rwa [ok] at run

theorem short_lengths_kept :
    Kept wideRing.shared 0 [7] ((ringSend 0 (some [7])).exec serve wideRing).2.mem ∧
    Fetches 0 6 ∧ Delivers 1 1500 ∧ Delivers 4 65536 := by
  have run : (ringSend 0 (some [7])).Runs (Does Served) wideRing (.ok ())
      ((ringSend 0 (some [7])).exec serve wideRing).2 :=
    wideRing_sends (by decide) (by decide) (by decide)
  have read := lengths_kept_iff run (show 0 + 6 % 2 ^ 16 ≤ 2 ^ 32 by decide)
  have write := lengths_kept_iff run (show 1 + 1500 % 2 ^ 16 ≤ 2 ^ 32 by decide)
  have none := lengths_kept_iff run (show 4 + 65536 % 2 ^ 16 ≤ 2 ^ 32 by decide)
  exact ⟨read.2.1 (by decide) (by constructor <;> decide), read.2.2.1.mpr (.inl (by decide)),
    write.2.2.2.mpr (.inl (by decide)), none.2.2.2.mpr (.inr (by decide))⟩

/-- Of 65540 bytes the first four are moved, and every call returns 0. -/
theorem long_length_lost : (∃ b', (ringSend 0 (some (List.replicate 65540 7))).Runs (Does Served)
      wideRing (.ok ()) b' ∧ ¬Kept wideRing.shared 0 (List.replicate 65540 7) b'.mem) ∧
    ¬Fetches 0 65540 ∧ ¬Delivers 0 65540 := by
  have long : (List.replicate 65540 (7 : UInt8)).length = 65540 := List.length_replicate
  refine ⟨⟨_, wideRing_sends (by omega) (by omega) ?_, fun kept => ?_⟩, ?_, ?_⟩
  · rw [long]
    decide
  · have := kept.length_lt
    omega
  · rw [Spi.fetches_iff (by decide)]
    decide
  · rw [Spi.delivers_iff (by decide)]
    decide

end Qapp.RingHost
