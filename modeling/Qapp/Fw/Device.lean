import Qapp.Fw.Flash

/-!
# What a device operation can do

Every erase and write ends in one of three outcomes. Reads change nothing but the
list of faults to come.
-/

namespace Qapp.Fw
open ByteMem Traced

def Outcome.res : Outcome → Except Status Unit
  | .done => .ok ()
  | _ => .error .error

/-- What an operation leaves behind. -/
def Op.run (out : Outcome) (s : St) : Op → St
  | .erase a n =>
    match out with
    | .done => { s with flash := Nor.erase s.flash a n }
    | .failed left => { s with flash := Nor.damage s.flash a n left }
    | .rejected => s
  | .write a bs =>
    match out with
    | .done => { s with flash := Nor.program s.flash a bs }
    | .failed left => { s with flash := Nor.damage s.flash a bs.length left }
    | .rejected => s
  | .rramWrite a bs =>
    match out with
    | .done => { s with rram := store s.rram a bs }
    | .failed left => { s with rram := Nor.damage s.rram a bs.length left }
    | .rejected => s

/-- The range of flash an operation is about. -/
def Op.flashRange : Op → Option (Nat × Nat)
  | .erase a n => some (a, n)
  | .write a bs => some (a, bs.length)
  | .rramWrite _ _ => none

/-- Operations outside the device are rejected, others fail only by a fault. -/
structure Possible (e : Env) (s : St) (op : Op) (out : Outcome) : Prop where
  inside : out ≠ .rejected → ∀ a n, op.flashRange = some (a, n) → a + n ≤ e.memSize
  outside : out = .rejected → ∃ a n, op.flashRange = some (a, n) ∧ e.memSize < a + n
  fault : ∀ left, out = .failed left → s.opFaults ≠ []

/-- The state after an operation: its effect, with one fault used up at most. -/
structure Ran (s : St) (op : Op) (out : Outcome) (t : St) : Prop where
  eq : t = { op.run out s with opFaults := t.opFaults }
  suffix : t.opFaults <:+ s.opFaults

theorem opFault_none {s : St} (h : s.opFaults = []) : s.opFault = none := by
  rw [St.opFault, h]
  rfl

theorem opFault_some {s : St} {left : Mem} (h : s.opFault = some left) : s.opFaults ≠ [] := by
  intro hn
  rw [opFault_none hn] at h
  cases h

theorem flashWrite_cases (e : Env) (who : Issuer) (a : Nat) (bs : List UInt8) (s : St) :
    ∃ out t, flashWrite e who a bs s = ⟨out.res, t, [.op who (.write a bs) out]⟩ ∧
      Possible e s (.write a bs) out ∧ Ran s (.write a bs) out t := by
  unfold flashWrite
  simp only [Act.bind_run, Act.read_run, Act.andThen_ok, Act.ite_run]
  split
  · rename_i h
    refine ⟨.rejected, s, rfl, ⟨by simp, fun _ => ⟨a, bs.length, rfl, h⟩, by simp⟩, ⟨rfl, ?_⟩⟩
    exact List.suffix_refl _
  · rename_i h
    have range : ∀ b n, Op.flashRange (.write a bs) = some (b, n) → b + n ≤ e.memSize := by
      intro b n hr
      cases hr
      exact Nat.not_lt.mp h
    cases hf : s.opFault with
    | none =>
      refine ⟨.done, _, rfl, ⟨fun _ => range, by simp, by simp⟩, ⟨rfl, ?_⟩⟩
      exact List.tail_suffix _
    | some left =>
      refine ⟨.failed left, _, rfl, ⟨fun _ => range, by simp, fun _ _ => opFault_some hf⟩,
        ⟨rfl, ?_⟩⟩
      exact List.tail_suffix _

theorem flashErase_cases (e : Env) (who : Issuer) (b n : Nat) (s : St) :
    ∃ out t, flashErase e who b n s = ⟨out.res, t,
        [.op who (.erase (b * blockSize % 2 ^ 32) (n * blockSize % 2 ^ 32)) out]⟩ ∧
      Possible e s (.erase (b * blockSize % 2 ^ 32) (n * blockSize % 2 ^ 32)) out ∧
      Ran s (.erase (b * blockSize % 2 ^ 32) (n * blockSize % 2 ^ 32)) out t := by
  unfold flashErase
  simp only [Act.bind_run, Act.read_run, Act.andThen_ok, Act.ite_run]
  generalize b * blockSize % 2 ^ 32 = a
  generalize n * blockSize % 2 ^ 32 = k
  split
  · rename_i h
    refine ⟨.rejected, s, rfl, ⟨by simp, fun _ => ⟨a, k, rfl, h⟩, by simp⟩, ⟨rfl, ?_⟩⟩
    exact List.suffix_refl _
  · rename_i h
    have range : ∀ b n, Op.flashRange (.erase a k) = some (b, n) → b + n ≤ e.memSize := by
      intro b n hr
      cases hr
      exact Nat.not_lt.mp h
    cases hf : s.opFault with
    | none =>
      refine ⟨.done, _, rfl, ⟨fun _ => range, by simp, by simp⟩, ⟨rfl, ?_⟩⟩
      exact List.tail_suffix _
    | some left =>
      refine ⟨.failed left, _, rfl, ⟨fun _ => range, by simp, fun _ _ => opFault_some hf⟩,
        ⟨rfl, ?_⟩⟩
      exact List.tail_suffix _

theorem rramWrite_cases (e : Env) (who : Issuer) (a : Nat) (bs : List UInt8) (s : St) :
    ∃ out t, rramWrite who a bs s = ⟨out.res, t, [.op who (.rramWrite a bs) out]⟩ ∧
      Possible e s (.rramWrite a bs) out ∧ Ran s (.rramWrite a bs) out t := by
  unfold rramWrite
  simp only [Act.bind_run, Act.read_run, Act.andThen_ok, Act.update_run]
  cases hf : s.opFault with
  | none =>
    refine ⟨.done, _, rfl, ⟨by simp [Op.flashRange], by simp, by simp⟩, ⟨rfl, ?_⟩⟩
    exact List.tail_suffix _
  | some left =>
    refine ⟨.failed left, _, rfl,
      ⟨by simp [Op.flashRange], by simp, fun _ _ => opFault_some hf⟩, ⟨rfl, ?_⟩⟩
    exact List.tail_suffix _

/-- Without faults, what is on the device is done. -/
theorem Possible.done {e : Env} {s : St} {op : Op} {out : Outcome} (h : Possible e s op out)
    (clean : s.opFaults = []) (range : ∀ a n, op.flashRange = some (a, n) → a + n ≤ e.memSize) :
    out = .done := by
  cases out with
  | done => rfl
  | failed left => exact absurd clean (h.fault left rfl)
  | rejected =>
    obtain ⟨a, n, hr, hout⟩ := h.outside rfl
    have := range a n hr
    omega

theorem Ran.clean {s t : St} {op : Op} (h : Ran s op .done t) (clean : s.opFaults = []) :
    t = op.run .done s := by
  have hs := h.suffix
  rw [clean, List.suffix_nil] at hs
  rw [h.eq, hs]
  cases op <;> simp only [Op.run, ← clean]

theorem flashWrite_clean (e : Env) (who : Issuer) {a : Nat} {bs : List UInt8} {s : St}
    (clean : s.opFaults = []) (range : a + bs.length ≤ e.memSize) :
    flashWrite e who a bs s = ⟨.ok (), { s with flash := Nor.program s.flash a bs },
      [.op who (.write a bs) .done]⟩ := by
  obtain ⟨out, t, run, possible, ran⟩ := flashWrite_cases e who a bs s
  obtain rfl := possible.done clean fun b n h => by cases h; exact range
  rw [run, ran.clean clean]
  rfl

/-! ## Reads -/

/-- The states differ only in read faults that have been used up. -/
structure Reads (s t : St) : Prop where
  eq : t = { s with readFaults := t.readFaults }
  suffix : t.readFaults <:+ s.readFaults

namespace Reads
variable {s t u : St}

theorem refl (s : St) : Reads s s := ⟨rfl, List.suffix_refl _⟩

theorem trans (h : Reads s t) (k : Reads t u) : Reads s u := by
  refine ⟨?_, k.suffix.trans h.suffix⟩
  rw [k.eq, h.eq]

theorem pop (s : St) : Reads s (popReadFault s) := ⟨rfl, List.tail_suffix _⟩

theorem flash (h : Reads s t) : t.flash = s.flash := by rw [h.eq]
theorem rram (h : Reads s t) : t.rram = s.rram := by rw [h.eq]
theorem opFaults (h : Reads s t) : t.opFaults = s.opFaults := by rw [h.eq]
theorem handles (h : Reads s t) : t.handles = s.handles := by rw [h.eq]
theorem cxt (h : Reads s t) : t.cxt = s.cxt := by rw [h.eq]
theorem imageHdr (h : Reads s t) : t.imageHdr = s.imageHdr := by rw [h.eq]
theorem init (h : Reads s t) : t.fuInitialized = s.fuInitialized := by rw [h.eq]
theorem num (h : Reads s t) : t.fwdSupportNum = s.fwdSupportNum := by rw [h.eq]

end Reads

theorem flashRead_cases (e : Env) (a n : Nat) (s : St) :
    ∃ ok m t, flashRead e a n s = ⟨.ok (ok, m), t, []⟩ ∧ Reads s t ∧ (ok = true → m = s.flash) := by
  unfold flashRead
  simp only [Act.bind_run, Act.read_run, Act.andThen_ok, Act.ite_run]
  split
  · exact ⟨false, e.junk, s, rfl, .refl s, by simp⟩
  · simp only [Act.update_run, Act.andThen_ok, List.nil_append]
    cases s.readFault with
    | none => exact ⟨true, s.flash, _, rfl, .pop s, fun _ => rfl⟩
    | some left => exact ⟨false, left, _, rfl, .pop s, by simp⟩

/-- A read inside the device uses up one fault, if there is one. -/
theorem flashRead_inside {e : Env} {a n : Nat} (inside : a + n ≤ e.memSize) (s : St) :
    ∃ ok m, flashRead e a n s = ⟨.ok (ok, m), popReadFault s, []⟩ ∧
      (ok = true ↔ s.readFault = none) ∧ (ok = true → m = s.flash) := by
  unfold flashRead
  simp only [Act.bind_run, Act.read_run, Act.andThen_ok,
    if_neg (Nat.not_lt.mpr inside), Act.update_run]
  cases s.readFault with
  | none => exact ⟨true, s.flash, rfl, by simp, fun _ => rfl⟩
  | some left => exact ⟨false, left, rfl, by simp, by simp⟩

theorem flashRead_outside {e : Env} {a n : Nat} (outside : e.memSize < a + n) (s : St) :
    flashRead e a n s = ⟨.ok (false, e.junk), s, []⟩ := by
  unfold flashRead
  simp only [Act.bind_run, Act.read_run, Act.andThen_ok, if_pos outside, Act.pure_run,
    List.nil_append]

theorem rramRead_cases (s : St) :
    ∃ ok m t, rramRead s = ⟨.ok (ok, m), t, []⟩ ∧ Reads s t ∧ (ok = true → m = s.rram) := by
  unfold rramRead
  simp only [Act.bind_run, Act.read_run, Act.andThen_ok, Act.update_run]
  cases s.readFault with
  | none => exact ⟨true, s.rram, _, rfl, .pop s, fun _ => rfl⟩
  | some left => exact ⟨false, left, _, rfl, .pop s, by simp⟩

theorem popReadFault_nil {s : St} (clean : s.readFaults = []) : popReadFault s = s := by
  cases s
  simp only at clean
  subst clean
  rfl

theorem flashRead_clean (e : Env) {a n : Nat} {s : St} (clean : s.readFaults = [])
    (range : a + n ≤ e.memSize) : flashRead e a n s = ⟨.ok (true, s.flash), s, []⟩ := by
  unfold flashRead
  simp only [Act.bind_run, Act.read_run, Act.andThen_ok, Nat.not_lt.mpr range, if_false,
    Act.update_run, St.readFault, clean, List.headD_nil, Act.pure_run, popReadFault_nil clean,
    List.nil_append]

/-! ## Allocation -/

theorem malloc_cases (b : Block) (s : St) :
    (malloc b s = ⟨.ok true, { s with oom := s.oom.tail }, [.note (.alloc b)]⟩) ∨
      (malloc b s = ⟨.ok false, { s with oom := s.oom.tail }, [.note (.denied b)]⟩ ∧
        s.oom ≠ []) := by
  unfold malloc
  simp only [Act.bind_run, Act.read_run, Act.andThen_ok, Act.update_run, Act.ite_run]
  split
  · rename_i h
    refine .inr ⟨rfl, ?_⟩
    intro hn
    simp [hn] at h
  · exact .inl rfl

end Qapp.Fw
