import Qapp.Fw.Mem

/-!
# Fields of the descriptors

How programming or erasing a range shows in the fields of the three descriptors.
-/

namespace Qapp.Fw
open ByteMem Traced

/-- `x` is in the block of descriptor `i`. -/
def InFwd (i x : Nat) : Prop := fwdAddr i ≤ x ∧ x < fwdAddr i + blockSize

theorem FwdInfo.in_block (info : FwdInfo) : info.offset + info.size ≤ 14 := by
  cases info <;> decide

theorem FwdInfo.apart {a b : FwdInfo} (h : a ≠ b) :
    a.offset + a.size ≤ b.offset ∨ b.offset + b.size ≤ a.offset := by
  cases a <;> cases b <;> first | exact absurd rfl h | decide

theorem fwdField_congr {m m' : Mem} {i : Nat} {info : FwdInfo}
    (same : ∀ x, fwdAddr i + info.offset ≤ x → x < fwdAddr i + info.offset + info.size →
      m' x = m x) : fwdField m' i info = fwdField m i info := by
  rw [fwdField, fwdField, load_congr fun k hk => same _ (by omega) (by omega)]

theorem fwdField_congr_block {m m' : Mem} {i : Nat} (same : ∀ x, InFwd i x → m' x = m x)
    (info : FwdInfo) : fwdField m' i info = fwdField m i info := by
  refine fwdField_congr fun x lo hi => same x ⟨by omega, ?_⟩
  have := info.in_block
  unfold blockSize
  omega

/-- Setting one field leaves the others, and the other descriptors. -/
theorem fwdField_program_ne (m : Mem) {i j : Nat} {a b : FwdInfo} (v : Nat)
    (h : i ≠ j ∨ a ≠ b) :
    fwdField (Nor.program m (fwdAddr j + b.offset) (leBytes b.size v)) i a = fwdField m i a := by
  refine fwdField_congr fun x lo hi => Nor.program_outside m ?_
  rw [length_leBytes]
  have ha := a.in_block
  have hb := b.in_block
  rcases Nat.lt_trichotomy i j with hij | rfl | hij
  · unfold fwdAddr blockSize at *; omega
  · rcases FwdInfo.apart (h.resolve_left fun hn => hn rfl) with hab | hab <;> omega
  · unfold fwdAddr blockSize at *; omega

theorem program_other_block (m : Mem) {i j x : Nat} (b : FwdInfo) (v : Nat) (h : i ≠ j)
    (hx : InFwd i x) :
    Nor.program m (fwdAddr j + b.offset) (leBytes b.size v) x = m x := by
  refine Nor.program_outside m ?_
  rw [length_leBytes]
  have hb := b.in_block
  unfold InFwd fwdAddr blockSize at *
  omega

/-- A field with all bits set takes any value. -/
theorem fwdField_program_blank {m : Mem} {i : Nat} {a : FwdInfo} {v : Nat}
    (blank : fwdField m i a + 1 = 256 ^ a.size) (small : v < 256 ^ a.size) :
    fwdField (Nor.program m (fwdAddr i + a.offset) (leBytes a.size v)) i a = v := by
  have ff : Nor.Blank m (fwdAddr i + a.offset) (leBytes a.size v).length := by
    rw [length_leBytes]
    intro x lo hi
    have hlen : (load m (fwdAddr i + a.offset) a.size).length = a.size := length_load _ _ _
    refine @eq_ff_of_leNat (load m (fwdAddr i + a.offset) a.size) ?_ _ ?_
    · rw [hlen]; exact blank
    · rw [List.mem_iff_getElem]
      refine ⟨x - (fwdAddr i + a.offset), by rw [hlen]; omega, ?_⟩
      simp only [load, List.getElem_map, List.getElem_range]
      congr 1
      omega
  have := Nor.load_program_blank ff
  rw [length_leBytes] at this
  rw [fwdField, this, leNat_leBytes, Nat.mod_eq_of_lt small]

/-- A zero byte can always be written. -/
theorem fwdField_program_invalid (m : Mem) (i : Nat) :
    fwdField (Nor.program m (fwdAddr i + FwdInfo.offset .status)
      (leBytes (FwdInfo.size .status) statusInvalid)) i .status = statusInvalid := by
  have lt : fwdAddr i + FwdInfo.offset .status < fwdAddr i + FwdInfo.offset .status +
      (leBytes (FwdInfo.size .status) statusInvalid).length := by simp [FwdInfo.size]
  have h := Nor.program_inside m (Nat.le_refl _) lt
  simp only [fwdField, FwdInfo.size, load, List.range_one, List.map_cons, List.map_nil,
    Nat.add_zero, leNat] at h ⊢
  rw [h]
  simp [statusInvalid, leBytes]

/-- A table the scan takes for a firmware. -/
def bootableAt (m : Mem) (i : Nat) : Bool :=
  bootable (fwdField m i .magic) (fwdField m i .status) (fwdField m i .totalImage)

theorem bootableAt_congr {m m' : Mem} {i : Nat} (same : ∀ x, InFwd i x → m' x = m x) :
    bootableAt m' i = bootableAt m i := by
  simp only [bootableAt, fwdField_congr_block same]

theorem bootableAt_status {m : Mem} {i : Nat} (h : bootableAt m i = true) :
    fwdField m i .status = statusValid := by
  simp only [bootableAt, bootable, Bool.and_eq_true, beq_iff_eq] at h
  exact h.1.1.2

end Qapp.Fw
