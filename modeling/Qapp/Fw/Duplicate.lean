import Qapp.Fw.Calls
import Qapp.Fw.Copy
import Qapp.Fw.Track

/-!
# What the copy of FS1 leaves in FS2

FS1 is only read, so a copy that fails can be tried again: what it has left in FS2 does not
matter to the next one.
-/

namespace Qapp.Fw
open ByteMem Traced

variable {e : Env} {s t u : St} {src dst : Client} {bytes : List UInt8} {a : Nat}

theorem Lookup.unique {m : Mem} {f id : Nat} {c c' : Client} (h : Lookup m f id c)
    (h' : Lookup m f id c') : c' = c := by
  obtain ⟨-, i, found, rfl⟩ := h
  obtain ⟨-, j, found', rfl⟩ := h'
  rw [found] at found'
  cases found'
  rfl

/-- Of the flash and the RRAM only the area of `dst` is written. -/
structure Contained (dst : Client) (s t : St) : Prop where
  rram : t.rram = s.rram
  others : ∀ x, x < dst.imgStart ∨ dst.imgStart + dst.imgSize ≤ x → t.flash x = s.flash x

theorem Contained.of_eq (flash : t.flash = s.flash) (rram : t.rram = s.rram) : Contained dst s t :=
  ⟨rram, fun x _ => congrFun flash x⟩

theorem Contained.trans (h : Contained dst s t) (next : Contained dst t u) : Contained dst s u where
  rram := next.rram.trans h.rram
  others := fun x out => (next.others x out).trans (h.others x out)

/-- Without an error `bytes` are stored at `a`. -/
structure Refills (dst : Client) (a : Nat) (bytes : List UInt8) (s : St) (r : Except Status Unit)
    (t : St) : Prop where
  contained : Contained dst s t
  stored : r = .ok () → t.flash = store s.flash a bytes

namespace Refills
variable {r : Except Status Unit}

theorem error {err : Status} (contained : Contained dst s t) :
    Refills dst a bytes s (.error err) t := by
  refine ⟨contained, ?_⟩
  rintro ⟨⟩

/-- The states around it may differ in anything but the flash and the RRAM. -/
theorem around {s' t' : St} (h : Refills dst a bytes s r t) (before : s.flash = s'.flash)
    (before' : s.rram = s'.rram) (after : t'.flash = t.flash) (after' : t'.rram = t.rram) :
    Refills dst a bytes s' r t' where
  contained := (Contained.of_eq before before').trans (h.contained.trans (.of_eq after after'))
  stored := by
    rw [after, ← before]
    exact h.stored

/-- Two copies, the second right behind the first. -/
theorem append {more : List UInt8} (h : Refills dst a bytes s (.ok ()) t)
    (next : Refills dst (a + bytes.length) more t r u) :
    Refills dst a (bytes ++ more) s r u where
  contained := h.contained.trans next.contained
  stored := by
    intro ok
    rw [next.stored ok, h.stored rfl, store_append]

end Refills

/-! ## One block -/

section Block
variable {offset : Nat} {out : Outcome}

/-- A block of the area is erased and written at its place. -/
theorem Client.copy_ops (bytes : List UInt8) (id : dst.imgId ≠ sblImgId)
    (start : dst.imgStart % blockSize = 0) (room : dst.imgStart + dst.imgSize ≤ 2 ^ 32)
    (aligned : offset % blockSize = 0) (fits : offset + blockSize ≤ dst.imgSize) :
    dst.eraseOp offset blockSize = .erase (dst.imgStart + offset) blockSize ∧
      dst.writeOp offset bytes = .write (dst.imgStart + offset) bytes := by
  have lt : dst.imgStart + offset < 2 ^ 32 := by
    unfold blockSize at fits
    omega
  have whole : (dst.imgStart + offset) / blockSize * blockSize = dst.imgStart + offset := by
    unfold blockSize at *
    omega
  constructor
  · unfold Client.eraseOp
    rw [Nat.mod_eq_of_lt lt, whole, Nat.mod_eq_of_lt lt]
    rfl
  · unfold Client.writeOp
    rw [if_neg id, Nat.mod_eq_of_lt lt]

/-- An operation on a range of the flash changes nothing else. -/
theorem Ran.apart {op : Op} {a n : Nat} (ran : Ran s op out t)
    (range : op.flashRange = some (a, n)) :
    t.rram = s.rram ∧ ∀ x, x < a ∨ a + n ≤ x → t.flash x = s.flash x := by
  constructor
  · funext x
    rw [ran.same.2]
    apply Op.run_rram
    rintro b bs rfl
    cases range
  · intro x outside
    rw [ran.same.1]
    apply Op.run_flash
    intro b m same
    cases range.symm.trans same
    exact outside

theorem copyBlock_refills (e : Env) {k : Nat} (open' : s.handles k = dst)
    (id : dst.imgId ≠ sblImgId) (start : dst.imgStart % blockSize = 0)
    (room : dst.imgStart + dst.imgSize ≤ 2 ^ 32) (aligned : offset % blockSize = 0)
    (small : offset + blockSize < 2 ^ 32) (len : bytes.length = blockSize) :
    ∃ r t l, ((do
        (erasePartition e none (some k) offset blockSize).orFail .flashErasePartition
        (writePartition e none (some k) offset bytes 0).orFail .flashWritePartition : M Unit)) s =
          ⟨r, t, l⟩ ∧ t.handles = s.handles ∧
      Refills dst (dst.imgStart + offset) bytes s r t := by
  rw [Act.bind_run]
  rcases erasePartition_cases e none k offset blockSize s with
    ⟨sbl, -⟩ | ⟨err, run, -⟩ | ⟨out, t, run, fits, -, ran⟩
  · rw [open'] at sbl
    exact absurd sbl id
  · rw [Act.orFail_error run, Act.andThen_error]
    exact ⟨_, s, _, rfl, rfl, .error (.of_eq rfl rfl)⟩
  · rw [open'] at fits ran
    have inside := fits.inside
    rw [Nat.mod_eq_of_lt small] at inside
    obtain ⟨eraseOp, writeOp⟩ := Client.copy_ops bytes id start room aligned inside
    have handles := ran.handles
    rw [eraseOp] at ran
    obtain ⟨rram, others⟩ := ran.apart rfl
    have contained : Contained dst s t := ⟨rram, fun x outside => others x (by omega)⟩
    cases out with
    | failed left =>
      rw [Act.orFail_error run, Act.andThen_error]
      exact ⟨_, t, _, rfl, handles, .error contained⟩
    | rejected =>
      rw [Act.orFail_error run, Act.andThen_error]
      exact ⟨_, t, _, rfl, handles, .error contained⟩
    | done =>
      rw [Act.orFail_ok run, Act.andThen_ok]
      rcases writePartition_cases e none k offset bytes 0 t with
        ⟨err, run', -⟩ | ⟨v, run', quiet, same, -⟩ |
        ⟨out, q, v, l, run', -, -, quiet, same, -, -, ran'⟩
      · rw [Act.orFail_error run']
        exact ⟨_, t, _, rfl, handles, .error contained⟩
      · rw [Act.orFail_error run']
        have kept : Contained dst t v := .of_eq quiet.flash quiet.rram
        exact ⟨_, v, _, rfl, same.trans handles, .error (contained.trans kept)⟩
      · have handles' := ran'.handles.trans (same.trans handles)
        rw [handles, open', writeOp] at ran'
        obtain ⟨rram', others'⟩ := ran'.apart rfl
        have kept : Contained dst t q := .of_eq quiet.flash quiet.rram
        have contained' : Contained dst s v :=
          (contained.trans kept).trans ⟨rram', fun x outside => others' x (by omega)⟩
        cases out with
        | failed left =>
          rw [Act.orFail_error run']
          exact ⟨_, v, _, rfl, handles', .error contained'⟩
        | rejected =>
          rw [Act.orFail_error run']
          exact ⟨_, v, _, rfl, handles', .error contained'⟩
        | done =>
          rw [Act.orFail_ok run']
          refine ⟨_, v, _, rfl, handles', contained', fun _ => ?_⟩
          have erased : t.flash = Nor.erase s.flash (dst.imgStart + offset) blockSize :=
            ran.same.1
          have written : v.flash = Nor.program q.flash (dst.imgStart + offset) bytes :=
            ran'.same.1
          rw [written, quiet.flash, erased, ← len, Nor.program_erase]

end Block

/-! ## The loop over the blocks -/

theorem readPartition_loads (e : Env) {k : Nat} (offset count : Nat)
    (id : (s.handles k).imgId ≠ sblImgId) :
    ∃ ok bytes t, readPartition e (some k) offset count s = ⟨.ok (ok, bytes), t, []⟩ ∧
      Reads s t ∧ (ok = true →
        bytes = load s.flash (((s.handles k).imgStart + offset) % 2 ^ 32) count) := by
  unfold readPartition
  simp only [Act.bind_run, Act.read_run, Act.andThen_ok, Act.ite_run, List.nil_append, if_neg id]
  split
  · exact ⟨false, _, s, rfl, .refl s, by simp⟩
  · obtain ⟨ok, m, t, run, reads, same⟩ := flashRead_cases e
      (((s.handles k).imgStart + offset) % 2 ^ 32) count s
    simp only [run, Act.andThen_ok, Act.pure_run, List.nil_append]
    exact ⟨ok, _, t, rfl, reads, fun h => by rw [same h]⟩

/-- FS1 and FS2 of FWD `f`: two areas apart from each other, FS2 behind the tables. -/
structure FsPair (m : Mem) (f : Nat) (src dst : Client) : Prop where
  source : Lookup m f fs1ImgId src
  target : Lookup m f fs2ImgId dst
  tables : maxFwd * blockSize ≤ dst.imgStart
  inside : src.imgStart + src.imgSize ≤ 2 ^ 32
  room : dst.imgStart + dst.imgSize ≤ 2 ^ 32
  disjoint : src.imgStart + src.imgSize ≤ dst.imgStart ∨ dst.imgStart + dst.imgSize ≤ src.imgStart

section FsPair
variable {m : Mem} {f : Nat}

theorem FsPair.notSbl (pair : FsPair m f src dst) :
    src.imgId ≠ sblImgId ∧ dst.imgId ≠ sblImgId := by
  rw [pair.source.imgId, pair.target.imgId]
  decide

/-- The source is not written to. -/
theorem FsPair.load_source (pair : FsPair m f src dst) (h : Contained dst s t)
    (offset n : Nat) (inside : offset + n ≤ src.imgSize) :
    load t.flash (src.imgStart + offset) n = load s.flash (src.imgStart + offset) n := by
  apply load_congr
  intro i lt
  apply h.others
  have := pair.disjoint
  omega

/-- The tables are not written to. -/
theorem FsPair.kept (pair : FsPair s.flash f src dst) (h : Contained dst s t) :
    FsPair t.flash f src dst := by
  have same : ∀ x, InFwd f x → s.flash x = t.flash x := by
    rintro x ⟨-, hi⟩
    refine (h.others x (.inl ?_)).symm
    have lt := pair.source.1
    have := pair.tables
    unfold fwdAddr at hi
    unfold maxFwd blockSize at *
    omega
  exact ⟨pair.source.congr same, pair.target.congr same, pair.tables, pair.inside, pair.room,
    pair.disjoint⟩

end FsPair

theorem copyFs_refills (e : Env) {m : Mem} {f k₁ k₂ : Nat} (pair : FsPair m f src dst)
    (n offset : Nat) (s : St) (open₁ : s.handles k₁ = src) (open₂ : s.handles k₂ = dst)
    (fits : offset + n * blockSize ≤ src.imgSize) (aligned : offset % blockSize = 0) :
    ∃ r t l, copyFs e k₁ k₂ n offset s = ⟨r, t, l⟩ ∧
      Refills dst (dst.imgStart + offset) (load s.flash (src.imgStart + offset) (n * blockSize))
        s r t := by
  induction n generalizing offset s with
  | zero =>
    refine ⟨.ok (), s, [], rfl, .of_eq rfl rfl, fun _ => ?_⟩
    rw [Nat.zero_mul, load_zero, store_nil]
  | succ n ih =>
    unfold copyFs
    rw [Nat.succ_mul, Nat.add_comm (n * blockSize)] at fits ⊢
    have lt := pair.source.imgSize_lt
    have inside := pair.inside
    have notSbl : (s.handles k₁).imgId ≠ sblImgId := open₁ ▸ pair.notSbl.1
    obtain ⟨ok, buf, t, run, reads, same⟩ := readPartition_loads e offset blockSize notSbl
    rw [open₁, Nat.mod_eq_of_lt (by unfold blockSize at *; omega)] at same
    rw [Act.bind_run, run, Act.andThen_ok]
    cases ok with
    | false => exact ⟨_, t, [], rfl, .error (.of_eq reads.flash reads.rram)⟩
    | true =>
      have same := same rfl
      have len : buf.length = blockSize := by rw [same, length_load]
      simp only [Bool.not_true, Bool.false_eq_true, if_false, List.nil_append]
      rw [← Act.bind_assoc, Act.bind_run]
      obtain ⟨r, u, l, block, handles, refills⟩ := copyBlock_refills e
        ((congrFun reads.handles k₂).trans open₂) pair.notSbl.2 (pair.target.blocks (by decide)).1
        pair.room aligned (by unfold blockSize at *; omega) len
      have refills := refills.around reads.flash reads.rram rfl rfl
      rw [same] at refills
      rw [block]
      cases r with
      | error err => exact ⟨_, u, l, rfl, .error refills.contained⟩
      | ok _ =>
        have kept : u.handles = s.handles := handles.trans reads.handles
        obtain ⟨r, v, l', run', more⟩ := ih (offset + blockSize) u
          ((congrFun kept k₁).trans open₁) ((congrFun kept k₂).trans open₂) (by omega)
          (by rw [Nat.add_mod, aligned]; rfl)
        rw [pair.load_source refills.contained _ _ (by omega)] at more
        rw [Act.andThen_ok, run', load_append, Nat.add_assoc]
        refine ⟨r, v, l ++ l', rfl, refills.append ?_⟩
        rw [length_load, Nat.add_assoc]
        exact more

/-! ## The state `DUPLICATE_FS` -/

theorem FsPair.whole {m : Mem} {f : Nat} (pair : FsPair m f src dst) :
    blockCount src.imgSize * blockSize = src.imgSize := by
  have := (pair.source.blocks (by decide)).2
  unfold blockCount
  unfold blockSize at *
  omega

theorem processDuplicateFs_refills (e : Env) (pair : FsPair s.flash (activeFwd s.rram) src dst) :
    ∃ r t l, processDuplicateFs e s = ⟨r, t, l⟩ ∧
      Refills dst dst.imgStart (load s.flash src.imgStart src.imgSize) s r t := by
  unfold processDuplicateFs
  obtain ⟨ok, t, run, eq, -⟩ := malloc_run .blockBuf s
  have flash : t.flash = s.flash := by rw [eq]
  have rram : t.rram = s.rram := by rw [eq]
  simp only [Act.bind_run, run, Act.andThen_ok]
  cases ok with
  | false => exact ⟨_, t, _, rfl, .error (.of_eq flash rram)⟩
  | true =>
    simp only [Bool.not_true, Bool.false_eq_true, if_false]
    rw [Act.bind_run, Act.read_run, Act.andThen_ok, rram]
    rcases findPartition_cases e (activeFwd s.rram) fs1ImgId t with ⟨err, u, run, reads⟩ |
      ⟨k₁, c₁, u, run, reads, free₁, found₁⟩
    · simp only [Act.attempt_bind_run run]
      exact ⟨_, u, _, rfl, .error (.of_eq (reads.flash.trans flash) (reads.rram.trans rram))⟩
    · simp only [Act.attempt_bind_run run]
      rw [flash] at found₁
      obtain rfl := pair.source.unique found₁
      have flash₁ : (setHandle k₁ c₁ u).flash = s.flash := reads.flash.trans flash
      have rram₁ : (setHandle k₁ c₁ u).rram = s.rram := reads.rram.trans rram
      have open₁ : (setHandle k₁ c₁ u).handles k₁ = c₁ := Function.update_self ..
      generalize setHandle k₁ c₁ u = v at flash₁ rram₁ open₁
      rcases findPartition_cases e (activeFwd s.rram) fs2ImgId v with ⟨err, w, run', reads'⟩ |
        ⟨k₂, c₂, w, run', reads', free₂, found₂⟩
      · simp only [Act.attempt_bind_run run', Fw.free, Act.bind_run, Act.emit_run, Act.andThen_ok,
          Act.update_run, Act.fail_run]
        exact ⟨_, releaseHandle k₁ w, _, rfl,
          .error (.of_eq (reads'.flash.trans flash₁) (reads'.rram.trans rram₁))⟩
      · rw [flash₁] at found₂
        obtain rfl := pair.target.unique found₂
        have ne : k₁ ≠ k₂ := by
          rintro rfl
          have zero := (freeHandle_some free₂).2
          rw [open₁, found₁.refCount] at zero
          cases zero
        simp only [Act.attempt_bind_run run', Act.bind_run Act.read, Act.read_run, Act.andThen_ok]
        have flash₂ : (setHandle k₂ c₂ w).flash = s.flash := reads'.flash.trans flash₁
        have rram₂ : (setHandle k₂ c₂ w).rram = s.rram := reads'.rram.trans rram₁
        have open₂ : (setHandle k₂ c₂ w).handles k₂ = c₂ := Function.update_self ..
        have open₁ : (setHandle k₂ c₂ w).handles k₁ = c₁ := by
          rw [← open₁, ← reads'.handles]
          exact Function.update_of_ne ne ..
        generalize setHandle k₂ c₂ w = x at flash₂ rram₂ open₁ open₂
        obtain ⟨r, y, l, copy, refills⟩ := copyFs_refills e pair (blockCount c₁.imgSize) 0 x
          open₁ open₂ (by rw [pair.whole, Nat.zero_add]) rfl
        rw [pair.whole, Nat.add_zero, Nat.add_zero, flash₂] at refills
        rw [open₁]
        simp only [Act.attempt_bind_run copy, Fw.free, Act.bind_run, Act.emit_run, Act.andThen_ok,
          Act.update_run]
        have done : Refills c₂ c₂.imgStart (load s.flash c₁.imgStart c₁.imgSize) s r
            (releaseHandle k₂ (releaseHandle k₁ y)) := refills.around flash₂ rram₂ rfl rfl
        cases r with
        | error err => exact ⟨_, _, _, rfl, done⟩
        | ok _ => exact ⟨_, _, _, rfl, done⟩

/-! ## Without a fault -/

/-- Nothing fails that is within the device. -/
structure Faultless (s : St) : Prop where
  reads : s.readFaults = []
  ops : s.opFaults = []
  oom : s.oom = []

section Faultless
variable {offset : Nat}

theorem Faultless.done {op : Op} {out : Outcome} (clean : Faultless s)
    (possible : Possible e s op out) (ran : Ran s op out t)
    (range : ∀ a n, op.flashRange = some (a, n) → a + n ≤ e.memSize) :
    out = .done ∧ Faultless t ∧ t.handles = s.handles := by
  obtain rfl := possible.done clean.ops range
  have handles := ran.handles
  refine ⟨rfl, ?_, handles⟩
  rw [ran.clean clean.ops]
  cases op <;> exact ⟨clean.reads, clean.ops, clean.oom⟩

theorem Client.copy_fits (id : dst.imgId ≠ sblImgId) (room : dst.imgStart + dst.imgSize < 2 ^ 32)
    (aligned : offset % blockSize = 0) (fits : offset + blockSize ≤ dst.imgSize) :
    EraseFits dst offset blockSize ∧ WriteFits dst offset blockSize := by
  constructor
  · refine ⟨id, by decide, rfl, aligned, ?_⟩
    rwa [Nat.mod_eq_of_lt (by omega)]
  · refine ⟨by decide, ?_⟩
    rw [Nat.mod_eq_of_lt (by omega), Nat.mod_eq_of_lt room]
    omega

theorem copyBlock_clean (clean : Faultless s) {k : Nat} (valid : handleValid s (some k) = true)
    (open' : s.handles k = dst) (id : dst.imgId ≠ sblImgId) (start : dst.imgStart % blockSize = 0)
    (room : dst.imgStart + dst.imgSize ≤ e.memSize) (aligned : offset % blockSize = 0)
    (fits : offset + blockSize ≤ dst.imgSize) (len : bytes.length = blockSize) :
    ∃ t l, ((do
        (erasePartition e none (some k) offset blockSize).orFail .flashErasePartition
        (writePartition e none (some k) offset bytes 0).orFail .flashWritePartition : M Unit)) s =
          ⟨.ok (), t, l⟩ ∧ t.handles = s.handles ∧ Faultless t := by
  have small : dst.imgStart + dst.imgSize < 2 ^ 32 := room.trans_lt e.memSize_lt
  obtain ⟨eraseOp, writeOp⟩ := Client.copy_ops bytes id start small.le aligned fits
  obtain ⟨eraseFits, writeFits⟩ := Client.copy_fits id small aligned fits
  rw [Act.bind_run]
  rcases erasePartition_cases e none k offset blockSize s with
    ⟨sbl, -⟩ | ⟨err, -, refused⟩ | ⟨out, t, run, -, possible, ran⟩
  · rw [open'] at sbl
    exact absurd sbl id
  · rw [open'] at refused
    exact absurd eraseFits (refused valid)
  · rw [open', eraseOp] at possible ran
    obtain ⟨rfl, clean', handles⟩ := clean.done possible ran fun a n range => by
      cases range
      omega
    have valid' : handleValid t (some k) = true := by
      unfold handleValid at valid ⊢
      rw [handles]
      exact valid
    rw [Act.orFail_ok run, Act.andThen_ok]
    rcases writePartition_cases e none k offset bytes 0 t with
      ⟨err, -, refused⟩ | ⟨v, -, -, -, oom⟩ |
      ⟨out, q, v, l, run', -, -, -, -, same, possible', ran'⟩
    · rw [handles, open', len] at refused
      exact absurd writeFits (refused valid')
    · exact absurd clean'.oom oom
    · obtain rfl := same clean'.oom
      rw [handles, open', writeOp] at possible' ran'
      obtain ⟨rfl, clean'', handles'⟩ := clean'.done possible' ran' fun a n range => by
        cases range
        omega
      rw [Act.orFail_ok run']
      exact ⟨v, _, rfl, handles'.trans handles, clean''⟩

theorem readPartition_clean (clean : Faultless s) {k : Nat}
    (valid : handleValid s (some k) = true) (open' : s.handles k = src)
    (id : src.imgId ≠ sblImgId) (room : src.imgStart + src.imgSize ≤ e.memSize)
    (aligned : offset % blockSize = 0) (fits : offset + blockSize ≤ src.imgSize) :
    ∃ bytes, readPartition e (some k) offset blockSize s = ⟨.ok (true, bytes), s, []⟩ ∧
      bytes.length = blockSize := by
  have small : src.imgStart + src.imgSize < 2 ^ 32 := room.trans_lt e.memSize_lt
  have params : memParametersValid s (some k) offset blockSize = true := by
    rw [writeFits_iff valid, open']
    exact (Client.copy_fits id small aligned fits).2
  have read := @flashRead_clean e ((src.imgStart + offset) % 2 ^ 32) blockSize s clean.reads
    (by rw [Nat.mod_eq_of_lt (by omega)]; omega)
  unfold readPartition
  simp only [Act.bind_run, Act.read_run, Act.andThen_ok, Act.ite_run, params, open', if_neg id,
    read, Bool.not_true, Bool.false_eq_true, if_false, Act.pure_run, List.nil_append]
  exact ⟨_, rfl, length_load _ _ _⟩

theorem copyFs_clean {m : Mem} {f k₁ k₂ : Nat} (pair : FsPair m f src dst)
    (source : src.imgStart + src.imgSize ≤ e.memSize)
    (target : dst.imgStart + dst.imgSize ≤ e.memSize) (le : src.imgSize ≤ dst.imgSize)
    (n offset : Nat) (s : St) (clean : Faultless s)
    (valid₁ : handleValid s (some k₁) = true) (valid₂ : handleValid s (some k₂) = true)
    (open₁ : s.handles k₁ = src) (open₂ : s.handles k₂ = dst)
    (fits : offset + n * blockSize ≤ src.imgSize) (aligned : offset % blockSize = 0) :
    ∃ t l, copyFs e k₁ k₂ n offset s = ⟨.ok (), t, l⟩ := by
  induction n generalizing offset s with
  | zero => exact ⟨s, [], rfl⟩
  | succ n ih =>
    unfold copyFs
    rw [Nat.succ_mul, Nat.add_comm (n * blockSize)] at fits
    obtain ⟨buf, run, len⟩ := readPartition_clean clean valid₁ open₁ pair.notSbl.1 source aligned
      (by omega)
    obtain ⟨u, l, block, handles, clean'⟩ := copyBlock_clean (e := e) clean valid₂ open₂
      pair.notSbl.2 (pair.target.blocks (by decide)).1 target aligned (by omega) len
    have kept : ∀ k, handleValid u (some k) = handleValid s (some k) := by
      intro k
      unfold handleValid
      rw [handles]
    obtain ⟨t, l', rest⟩ := ih (offset + blockSize) u clean' ((kept k₁).trans valid₁)
      ((kept k₂).trans valid₂) ((congrFun handles k₁).trans open₁)
      ((congrFun handles k₂).trans open₂) (by omega) (by rw [Nat.add_mod, aligned]; rfl)
    rw [Act.bind_run, run, Act.andThen_ok]
    simp only [Bool.not_true, Bool.false_eq_true, if_false, List.nil_append]
    rw [← Act.bind_assoc, Act.bind_run, block, Act.andThen_ok, rest]
    exact ⟨t, _, rfl⟩

end Faultless

theorem freeHandle_exists {k : Nat} (lt : k < maxHandles) (free : (s.handles k).refCount = 0) :
    ∃ i, freeHandle s = some i := by
  apply Option.isSome_iff_exists.mp
  apply List.find?_isSome.mpr
  exact ⟨k, List.mem_range.mpr lt, by simp [free]⟩

theorem findPartition_clean (clean : Faultless s) (init : s.fuInitialized = true) {f id k : Nat}
    (room : f < maxFwd → fwdAddr f + 512 ≤ e.memSize) (found : Lookup s.flash f id src)
    (free : freeHandle s = some k) :
    findPartition e f id s = ⟨.ok k, setHandle k src s, []⟩ := by
  obtain ⟨lt, i, entry, rfl⟩ := found
  unfold findPartition
  simp only [Act.bind_run, validation_run, init, if_true, Act.andThen_ok, Act.ite_run,
    Nat.not_le.mpr lt, if_false, Act.read_run, free, flashRead_clean e clean.reads (room lt),
    Bool.not_true, Bool.false_eq_true, entry, Act.update_run, Act.pure_run, List.nil_append]

/-- What the copy needs to go through. -/
structure CopyReady (e : Env) (src dst : Client) (s : St) : Prop where
  clean : Faultless s
  init : s.fuInitialized = true
  handles : ∃ i j, i ≠ j ∧ i < maxHandles ∧ j < maxHandles ∧ (s.handles i).refCount = 0 ∧
    (s.handles j).refCount = 0
  source : src.imgStart + src.imgSize ≤ e.memSize
  target : dst.imgStart + dst.imgSize ≤ e.memSize
  le : src.imgSize ≤ dst.imgSize

theorem processDuplicateFs_clean (pair : FsPair s.flash (activeFwd s.rram) src dst)
    (ready : CopyReady e src dst s) : (processDuplicateFs e s).res = .ok () := by
  have room : activeFwd s.rram < maxFwd → fwdAddr (activeFwd s.rram) + 512 ≤ e.memSize := by
    intro lt
    have := pair.tables
    have := ready.target
    unfold fwdAddr
    unfold maxFwd blockSize at *
    omega
  obtain ⟨ok, t, run, -, same⟩ := malloc_run .blockBuf s
  obtain ⟨rfl, rfl⟩ := same ready.clean.oom
  obtain ⟨i, j, ne, lt, lt', free, free'⟩ := ready.handles
  obtain ⟨k₁, free₁⟩ := freeHandle_exists lt free
  have find₁ := findPartition_clean ready.clean ready.init room pair.source free₁
  obtain ⟨k₂, free₂⟩ : ∃ k₂, freeHandle (setHandle k₁ src t) = some k₂ := by
    by_cases first : i = k₁
    · apply freeHandle_exists lt'
      rw [← free']
      exact congrArg _ (Function.update_of_ne (by omega) ..)
    · apply freeHandle_exists lt
      rw [← free]
      exact congrArg _ (Function.update_of_ne first ..)
  have clean₁ : Faultless (setHandle k₁ src t) :=
    ⟨ready.clean.reads, ready.clean.ops, ready.clean.oom⟩
  have find₂ := findPartition_clean (e := e) clean₁ ready.init room pair.target free₂
  have open₁' : (setHandle k₁ src t).handles k₁ = src := Function.update_self ..
  have apart : k₁ ≠ k₂ := by
    rintro rfl
    have zero := (freeHandle_some free₂).2
    rw [open₁', pair.source.refCount] at zero
    cases zero
  have open₁ : (setHandle k₂ dst (setHandle k₁ src t)).handles k₁ = src :=
    (Function.update_of_ne apart ..).trans open₁'
  have open₂ : (setHandle k₂ dst (setHandle k₁ src t)).handles k₂ = dst := Function.update_self ..
  have clean₂ : Faultless (setHandle k₂ dst (setHandle k₁ src t)) :=
    ⟨clean₁.reads, clean₁.ops, clean₁.oom⟩
  unfold processDuplicateFs
  rw [Act.bind_run, run, Act.andThen_ok]
  simp only [Bool.not_true, Bool.false_eq_true, if_false]
  rw [Act.bind_run, Act.read_run, Act.andThen_ok]
  simp only [Act.attempt_bind_run find₁, Act.attempt_bind_run find₂, Act.bind_run Act.read,
    Act.read_run, Act.andThen_ok]
  generalize setHandle k₂ dst (setHandle k₁ src t) = x at open₁ open₂ clean₂
  have valid : ∀ {k c}, x.handles k = c → c.refCount = 1 → k < maxHandles →
      handleValid x (some k) = true := by
    intro k c here one lt
    unfold handleValid
    simp only [here, one, lt]
    rfl
  obtain ⟨y, l, copy⟩ := copyFs_clean pair ready.source ready.target ready.le
    (blockCount src.imgSize) 0 x clean₂ (valid open₁ pair.source.refCount (freeHandle_some free₁).1)
    (valid open₂ pair.target.refCount (freeHandle_some free₂).1) open₁ open₂
    (by rw [pair.whole, Nat.zero_add]) rfl
  rw [open₁]
  simp only [Act.attempt_bind_run copy, Fw.free, Act.bind_run, Act.emit_run, Act.andThen_ok,
    Act.update_run, Act.pure_run]

/-! ## One attempt after the other -/

/-- `t` follows from `s` by attempts at the copy, which may have failed. All but the flash and the
RRAM may change between them. -/
inductive Attempts (e : Env) (s : St) : St → Prop
  | none : Attempts e s s
  | again {t u : St} (before : Attempts e s t)
      (flash : u.flash = (processDuplicateFs e t).state.flash)
      (rram : u.rram = (processDuplicateFs e t).state.rram) : Attempts e s u

theorem Attempts.mended (before : Attempts e s t) :
    Attempts e s { (processDuplicateFs e t).state with opFaults := [] } :=
  .again before rfl rfl

/-- The attempts so far have changed nothing outside FS2. -/
theorem Attempts.contained (attempts : Attempts e s t)
    (pair : FsPair s.flash (activeFwd s.rram) src dst) :
    Contained dst s t ∧ FsPair t.flash (activeFwd t.rram) src dst := by
  induction attempts with
  | none => exact ⟨.of_eq rfl rfl, pair⟩
  | @again t u before flash rram ih =>
    obtain ⟨so, now⟩ := ih
    obtain ⟨r, v, l, run, refills⟩ := processDuplicateFs_refills e now
    rw [run] at flash rram
    have last : Contained dst t u := refills.contained.trans (.of_eq flash rram)
    refine ⟨so.trans last, ?_⟩
    rw [last.rram]
    exact now.kept last

/-- Whatever earlier attempts have left in FS2, a copy without an error makes it what FS1 was
before the first of them, and one that meets no fault has no error. No attempt changes anything
outside FS2. -/
theorem duplicate_fs_heals (pair : FsPair s.flash (activeFwd s.rram) src dst)
    (attempts : Attempts e s t) :
    (processDuplicateFs e t).state.rram = s.rram ∧
      (∀ x, x < dst.imgStart ∨ dst.imgStart + dst.imgSize ≤ x →
        (processDuplicateFs e t).state.flash x = s.flash x) ∧
      ((processDuplicateFs e t).res = .ok () →
        load (processDuplicateFs e t).state.flash dst.imgStart src.imgSize =
          load s.flash src.imgStart src.imgSize) ∧
      (CopyReady e src dst t → (processDuplicateFs e t).res = .ok ()) := by
  obtain ⟨so, now⟩ := attempts.contained pair
  have clean := processDuplicateFs_clean (e := e) now
  obtain ⟨r, v, l, run, refills⟩ := processDuplicateFs_refills e now
  rw [run] at clean ⊢
  have all := so.trans refills.contained
  refine ⟨all.rram, all.others, fun ok => ?_, clean⟩
  have source := pair.load_source so 0 src.imgSize (by omega)
  rw [Nat.add_zero] at source
  rw [refills.stored ok, ← source]
  have same := load_store_same t.flash dst.imgStart (load t.flash src.imgStart src.imgSize)
  rwa [length_load] at same

/-- The first erase fails, and zeroes are left. -/
def tornDevice : St := { plainDevice with fuInitialized := true, opFaults := [some fun _ => 0] }

/-- After a failed attempt, without more faults. -/
def mendedDevice : St := { (processDuplicateFs plainEnv tornDevice).state with opFaults := [] }

theorem torn_copy_heals :
    (processDuplicateFs plainEnv tornDevice).res = .error .flashErasePartition ∧
      (processDuplicateFs plainEnv mendedDevice).res = .ok () ∧
      load (processDuplicateFs plainEnv mendedDevice).state.flash (4 * blockSize) blockSize =
        load tornDevice.flash (3 * blockSize) blockSize := by
  have source : Lookup tornDevice.flash (activeFwd tornDevice.rram) fs1ImgId
      ((fwdEntry tornDevice.flash 0 0).client 0 0) := ⟨by decide, 0, by rfl, by rfl⟩
  have target : Lookup tornDevice.flash (activeFwd tornDevice.rram) fs2ImgId
      ((fwdEntry tornDevice.flash 0 1).client 0 1) := ⟨by decide, 1, by rfl, by rfl⟩
  have pair : FsPair _ _ _ _ := ⟨source, target, by decide, by decide, by decide, by decide⟩
  have attempts : Attempts plainEnv tornDevice mendedDevice := Attempts.none.mended
  have ready : CopyReady plainEnv ((fwdEntry tornDevice.flash 0 0).client 0 0)
      ((fwdEntry tornDevice.flash 0 1).client 0 1) mendedDevice :=
    ⟨⟨by rfl, by rfl, by rfl⟩, by rfl, ⟨0, 1, by decide, by decide, by decide, by rfl, by rfl⟩,
      by decide, by decide, by decide⟩
  obtain ⟨-, -, copied, done⟩ := duplicate_fs_heals pair attempts
  exact ⟨by rfl, done ready, copied (done ready)⟩

end Qapp.Fw
