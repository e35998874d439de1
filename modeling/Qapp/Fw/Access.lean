import Qapp.Fw.Touch

/-!
# Handles and partitions

One lemma for each function on partitions: every way it can end, with the
operation it has issued.
-/

namespace Qapp.Fw
open ByteMem Traced

/-- The handle a session holds is one of the ten and in use. -/
def Held (s : St) : Prop :=
  ∀ c, s.cxt = some c → ∀ k, c.partitionHdl = some k → k < maxHandles ∧ 0 < (s.handles k).refCount

/-- The session does not hold handle `k`. -/
def Loose (k : Nat) (s : St) : Prop := ∀ c, s.cxt = some c → c.partitionHdl ≠ some k

theorem freeHandle_some {s : St} {k : Nat} (h : freeHandle s = some k) :
    k < maxHandles ∧ (s.handles k).refCount = 0 := by
  have mem := List.mem_of_find?_eq_some h
  have test := List.find?_some h
  exact ⟨List.mem_range.mp mem, by simpa using test⟩

theorem Held.loose {s : St} {k : Nat} (held : Held s) (free : freeHandle s = some k) :
    Loose k s := by
  intro c hc hk
  have := (held c hc k hk).2
  rw [(freeHandle_some free).2] at this
  exact absurd this (by decide)

theorem Loose.congr {s t : St} {k : Nat} (h : Loose k s) (cxt : t.cxt = s.cxt) : Loose k t := by
  intro c hc
  exact h c (cxt ▸ hc)

theorem Held.congr {s t : St} (h : Held s) (cxt : t.cxt = s.cxt)
    (partition : t.partition = s.partition) : Held t := by
  intro c hc k hk
  rw [cxt] at hc
  obtain ⟨lt, pos⟩ := h c hc k hk
  refine ⟨lt, ?_⟩
  have here : s.partition = some (s.handles k) := by
    unfold St.partition
    rw [hc]
    simp [hk]
  have there : t.partition = some (t.handles k) := by
    unfold St.partition
    rw [cxt, hc]
    simp [hk]
  rw [partition, here] at there
  rw [← Option.some.inj there]
  exact pos

theorem Quiet.held {s t : St} (q : Quiet s t) (h : Held s) : Held t := h.congr q.cxt q.partition

theorem partition_setHandle {s : St} {k : Nat} (loose : Loose k s) (c : Client) :
    (setHandle k c s).partition = s.partition := by
  unfold St.partition setHandle
  cases hc : s.cxt with
  | none => rfl
  | some x =>
    cases hk : x.partitionHdl with
    | none => simp [hk]
    | some j =>
      have : j ≠ k := by
        rintro rfl
        exact loose x hc hk
      simp [hk, Function.update, this]

theorem quiet_setHandle {s : St} {k : Nat} (loose : Loose k s) (c : Client) :
    Quiet s (setHandle k c s) :=
  ⟨rfl, rfl, rfl, rfl, fun h => ⟨h, rfl⟩, partition_setHandle loose c, List.suffix_refl _,
    List.suffix_refl _⟩

theorem quiet_release {s : St} {k : Nat} (loose : Loose k s) : Quiet s (releaseHandle k s) :=
  quiet_setHandle loose _

theorem Quiet.trans {s t u : St} (h : Quiet s t) (k : Quiet t u) : Quiet s u where
  flash := k.flash.trans h.flash
  rram := k.rram.trans h.rram
  cxt := k.cxt.trans h.cxt
  imageHdr := k.imageHdr.trans h.imageHdr
  init := fun i => ⟨(k.init (h.init i).1).1, (k.init (h.init i).1).2.trans (h.init i).2⟩
  partition := k.partition.trans h.partition
  reads := k.reads.trans h.reads
  ops := k.ops.trans h.ops

theorem quiet_oom (s : St) (oom : List Bool) : Quiet s { s with oom := oom } :=
  ⟨rfl, rfl, rfl, rfl, fun h => ⟨h, rfl⟩, rfl, List.suffix_refl _, List.suffix_refl _⟩

/-- `malloc` and its note. -/
theorem malloc_run (b : Block) (s : St) : ∃ ok t, malloc b s = ⟨.ok ok, t,
    [.note (if ok then .alloc b else .denied b)]⟩ ∧ t = { s with oom := t.oom } ∧
    (s.oom = [] → ok = true ∧ t = s) := by
  rcases malloc_cases b s with h | ⟨h, hn⟩
  · refine ⟨true, _, h, rfl, fun hn => ⟨rfl, ?_⟩⟩
    rw [hn, List.tail_nil, ← hn]
  · exact ⟨false, _, h, rfl, fun hn' => absurd hn' hn⟩

/-! ## Looking up and creating -/

/-- FWD `fwdIdx` lists a partition for `id`, and this is its client. -/
def Lookup (m : Mem) (fwdIdx id : Nat) (c : Client) : Prop :=
  fwdIdx < maxFwd ∧ ∃ i, entryOf m fwdIdx id = some i ∧ c = (fwdEntry m fwdIdx i).client fwdIdx i

theorem entryOf_some {m : Mem} {fwdIdx id i : Nat} (h : entryOf m fwdIdx id = some i) :
    i < maxImages ∧ (fwdEntry m fwdIdx i).imageId = id := by
  have mem := List.mem_of_find?_eq_some h
  have test := List.find?_some h
  exact ⟨List.mem_range.mp mem, by simpa using test⟩

theorem findPartition_cases (e : Env) (fwdIdx id : Nat) (s : St) :
    (∃ err t, findPartition e fwdIdx id s = ⟨.error err, t, []⟩ ∧ Reads s t) ∨
    ∃ k c t, findPartition e fwdIdx id s = ⟨.ok k, setHandle k c t, []⟩ ∧ Reads s t ∧
      freeHandle s = some k ∧ Lookup s.flash fwdIdx id c := by
  unfold findPartition
  simp only [Act.bind_run, validation_run]
  cases s.fuInitialized with
  | false => exact .inl ⟨_, s, rfl, .refl s⟩
  | true =>
    simp only [if_true, Act.andThen_ok, Act.ite_run, List.nil_append]
    by_cases hi : maxFwd ≤ fwdIdx
    · simp only [hi, if_true]
      exact .inl ⟨_, s, rfl, .refl s⟩
    · simp only [hi, if_false, Act.bind_run, Act.read_run, Act.andThen_ok, List.nil_append]
      cases free : freeHandle s with
      | none => exact .inl ⟨_, s, rfl, .refl s⟩
      | some k =>
        obtain ⟨ok, m, t, run, reads, hm⟩ := flashRead_cases e (fwdAddr fwdIdx) 512 s
        simp only [Act.bind_run, run, Act.andThen_ok, List.nil_append, Act.ite_run]
        cases ok with
        | false => exact .inl ⟨_, t, rfl, reads⟩
        | true =>
          obtain rfl := hm rfl
          simp only [Bool.not_true, Bool.false_eq_true, if_false]
          cases found : entryOf s.flash fwdIdx id with
          | none => exact .inl ⟨_, t, rfl, reads⟩
          | some i =>
            exact .inr ⟨k, _, t, rfl, reads, rfl, Nat.not_le.mp hi, i, found, rfl⟩

/-- The arguments of `createPartition` are aligned. -/
def Placeable (id start size : Nat) : Prop :=
  id ≠ sblImgId → start % blockSize = 0 ∧ size % blockSize = 0

def Client.entryOp (c : Client) : Op :=
  .write (entryAddr c.fwdIdx c.imgIdx) (entryBytes c.imgId c.imgVersion c.imgStart c.imgSize)

/-- The write of an entry to the first unused slot. -/
structure Entered (e : Env) (s : St) (c : Client) (out : Outcome) (t : St) : Prop where
  fwd : c.fwdIdx < maxFwd
  placeable : Placeable c.imgId c.imgStart c.imgSize
  slot : entryOf s.flash c.fwdIdx imageUnused = some c.imgIdx
  used : c.refCount = 1
  ran : ∃ r, Reads s r ∧ Possible e r c.entryOp out ∧ Ran r c.entryOp out t

theorem Entered.touches {e : Env} {s t : St} {c : Client} {out : Outcome}
    (h : Entered e s c out t) : Touches e (fun who op r => who = .entry c.fwdIdx c.imgIdx ∧
      op = c.entryOp ∧ r = out) s [.op (.entry c.fwdIdx c.imgIdx) c.entryOp out] t := by
  obtain ⟨r, reads, possible, ran⟩ := h.ran
  exact (Touches.quiet reads.quiet).trans (.op ⟨rfl, rfl, rfl⟩ possible ran)

theorem createPartition_cases (e : Env) (fwdIdx id version start size : Nat) (s : St) :
    (∃ err t, createPartition e fwdIdx id version start size s = ⟨.error err, t, []⟩ ∧
      Reads s t) ∨
    ∃ i out t, Entered e s ⟨fwdIdx, i, id, version, start, size, 1⟩ out t ∧
      ((out = .done ∧ ∃ k, freeHandle s = some k ∧
        createPartition e fwdIdx id version start size s =
          ⟨.ok k, setHandle k ⟨fwdIdx, i, id, version, start, size, 1⟩ t,
            [.op (.entry fwdIdx i)
              (Client.entryOp ⟨fwdIdx, i, id, version, start, size, 1⟩) .done]⟩) ∨
       (out ≠ .done ∧ createPartition e fwdIdx id version start size s =
          ⟨.error .error, t, [.op (.entry fwdIdx i)
            (Client.entryOp ⟨fwdIdx, i, id, version, start, size, 1⟩) out]⟩)) := by
  unfold createPartition
  simp only [Act.bind_run, validation_run]
  cases s.fuInitialized with
  | false => exact .inl ⟨_, s, rfl, .refl s⟩
  | true =>
    simp only [if_true, Act.andThen_ok, Act.ite_run, List.nil_append]
    by_cases hi : maxFwd ≤ fwdIdx
    · simp only [hi, if_true]
      exact .inl ⟨_, s, rfl, .refl s⟩
    · by_cases aligned : id ≠ sblImgId ∧ (start % blockSize ≠ 0 ∨ size % blockSize ≠ 0)
      · rw [if_neg hi, if_pos aligned]
        exact .inl ⟨_, s, rfl, .refl s⟩
      · simp only [hi, aligned, if_false, Act.bind_run, Act.read_run, Act.andThen_ok,
          List.nil_append]
        cases free : freeHandle s with
        | none => exact .inl ⟨_, s, rfl, .refl s⟩
        | some k =>
          obtain ⟨ok, m, t, run, reads, hm⟩ := flashRead_cases e (fwdAddr fwdIdx) 512 s
          simp only [Act.bind_run, run, Act.andThen_ok, List.nil_append, Act.ite_run]
          cases ok with
          | false => exact .inl ⟨_, t, rfl, reads⟩
          | true =>
            obtain rfl := hm rfl
            simp only [Bool.not_true, Bool.false_eq_true, if_false]
            cases found : entryOf s.flash fwdIdx imageUnused with
            | none => exact .inl ⟨_, t, rfl, reads⟩
            | some i =>
              obtain ⟨out, u, run', possible, ran⟩ := flashWrite_cases e (.entry fwdIdx i)
                (entryAddr fwdIdx i) (entryBytes id version start size) t
              have placeable : Placeable id start size := fun h => by
                constructor <;> · by_contra hn; exact aligned ⟨h, by tauto⟩
              refine .inr ⟨i, out, u,
                ⟨Nat.not_le.mp hi, placeable, found, rfl, t, reads, possible, ran⟩, ?_⟩
              simp only [Act.bind_run, run']
              cases out with
              | done => exact .inl ⟨rfl, k, rfl, rfl⟩
              | failed left => exact .inr ⟨by simp, rfl⟩
              | rejected => exact .inr ⟨by simp, rfl⟩

/-! ## Erasing, writing and reading -/

/-- `erasePartition` issues this operation. -/
def Client.eraseOp (c : Client) (offset nbytes : Nat) : Op :=
  .erase ((c.imgStart + offset) % 2 ^ 32 / blockSize * blockSize % 2 ^ 32)
    (nbytes / blockSize * blockSize % 2 ^ 32)

/-- `writePartition` issues this operation. -/
def Client.writeOp (c : Client) (offset : Nat) (bytes : List UInt8) : Op :=
  if c.imgId = sblImgId then .rramWrite ((c.imgStart + offset) % 2 ^ 32) bytes
  else .write ((c.imgStart + offset) % 2 ^ 32) bytes

structure EraseFits (c : Client) (offset nbytes : Nat) : Prop where
  id : c.imgId ≠ sblImgId
  pos : nbytes ≠ 0
  size : nbytes % blockSize = 0
  start : offset % blockSize = 0
  inside : (offset + nbytes) % 2 ^ 32 ≤ c.imgSize

structure WriteFits (c : Client) (offset count : Nat) : Prop where
  pos : count ≠ 0
  inside : (c.imgStart + offset + count) % 2 ^ 32 ≤ (c.imgStart + c.imgSize) % 2 ^ 32

theorem erasePartition_cases (e : Env) (image : Option Nat) (k offset nbytes : Nat) (s : St) :
    ((s.handles k).imgId = sblImgId ∧
      erasePartition e image (some k) offset nbytes s = ⟨.ok (), s, []⟩) ∨
    (∃ err, erasePartition e image (some k) offset nbytes s = ⟨.error err, s, []⟩ ∧
      (handleValid s (some k) = true → ¬EraseFits (s.handles k) offset nbytes)) ∨
    ∃ out t, erasePartition e image (some k) offset nbytes s = ⟨out.res, t,
        [.op (issuer image (s.handles k) offset) ((s.handles k).eraseOp offset nbytes) out]⟩ ∧
      EraseFits (s.handles k) offset nbytes ∧
      Possible e s ((s.handles k).eraseOp offset nbytes) out ∧
      Ran s ((s.handles k).eraseOp offset nbytes) out t := by
  unfold erasePartition
  simp only [Act.bind_run, Act.read_run, Act.andThen_ok, Act.ite_run, List.nil_append]
  cases valid : handleValid s (some k) with
  | false => exact .inr (.inl ⟨_, rfl, by simp⟩)
  | true =>
    simp only [Bool.not_true, Bool.false_eq_true, if_false]
    by_cases sbl : (s.handles k).imgId = sblImgId
    · simp only [sbl, if_true]
      exact .inl ⟨trivial, rfl⟩
    · by_cases bad : nbytes = 0 ∨ nbytes % blockSize ≠ 0 ∨ offset % blockSize ≠ 0
      · simp only [sbl, bad, if_false, if_true]
        refine .inr (.inl ⟨_, rfl, fun _ fits => ?_⟩)
        rcases bad with h | h | h
        · exact fits.pos h
        · exact h fits.size
        · exact h fits.start
      · by_cases out : (s.handles k).imgSize < (offset + nbytes) % 2 ^ 32
        · simp only [sbl, bad, out, if_false, if_true]
          exact .inr (.inl ⟨_, rfl, fun _ fits => absurd fits.inside (Nat.not_le.mpr out)⟩)
        · simp only [sbl, bad, out, if_false]
          obtain ⟨o, t, run, possible, ran⟩ := flashErase_cases e
            (issuer image (s.handles k) offset)
            (((s.handles k).imgStart + offset) % 2 ^ 32 / blockSize) (nbytes / blockSize) s
          refine .inr (.inr ⟨o, t, run, ⟨sbl, ?_, ?_, ?_, Nat.not_lt.mp out⟩, possible, ran⟩)
          all_goals tauto

theorem writeFits_iff {s : St} {k offset count : Nat} (valid : handleValid s (some k) = true) :
    memParametersValid s (some k) offset count = true ↔
      WriteFits (s.handles k) offset count := by
  unfold memParametersValid
  simp only [valid, Bool.and_true, Bool.and_eq_true, bne_iff_ne, decide_eq_true_eq]
  exact ⟨fun h => ⟨h.1, h.2⟩, fun h => ⟨h.1, h.2⟩⟩

/-- `l` holds one operation, beside notes. -/
def Around (who : Issuer) (op : Op) (out : Outcome) (l : List Event) : Prop :=
  l = [.op who op out] ∨ l = [.note (.alloc .aligned), .op who op out, .note (.free .aligned)]

theorem writePartition_cases (e : Env) (image : Option Nat) (k offset : Nat)
    (bytes : List UInt8) (addr : Nat) (s : St) :
    (∃ err, writePartition e image (some k) offset bytes addr s = ⟨.error err, s, []⟩ ∧
      (handleValid s (some k) = true → ¬WriteFits (s.handles k) offset bytes.length)) ∨
    (∃ t, writePartition e image (some k) offset bytes addr s =
        ⟨.error .insufficientMemory, t, [.note (.denied .aligned)]⟩ ∧ Quiet s t ∧
      t.handles = s.handles ∧ s.oom ≠ []) ∨
    ∃ out r t l, writePartition e image (some k) offset bytes addr s = ⟨out.res, t, l⟩ ∧
      WriteFits (s.handles k) offset bytes.length ∧
      Around (issuer image (s.handles k) offset) ((s.handles k).writeOp offset bytes) out l ∧
      Quiet s r ∧ r.handles = s.handles ∧ (s.oom = [] → r = s) ∧
      Possible e r ((s.handles k).writeOp offset bytes) out ∧
      Ran r ((s.handles k).writeOp offset bytes) out t := by
  unfold writePartition
  simp only [Act.bind_run, Act.read_run, Act.andThen_ok, Act.ite_run, List.nil_append]
  cases params : memParametersValid s (some k) offset bytes.length with
  | false =>
    refine .inl ⟨_, rfl, fun valid fits => ?_⟩
    rw [(writeFits_iff valid).mpr fits] at params
    cases params
  | true =>
    have fits : WriteFits (s.handles k) offset bytes.length := by
      have valid : handleValid s (some k) = true := by
        unfold memParametersValid at params
        simp only [Bool.and_eq_true] at params
        exact params.1.2
      exact (writeFits_iff valid).mp params
    simp only [Bool.not_true, Bool.false_eq_true, if_false]
    by_cases sbl : (s.handles k).imgId = sblImgId
    · have op : (s.handles k).writeOp offset bytes =
          .rramWrite (((s.handles k).imgStart + offset) % 2 ^ 32) bytes := by
        unfold Client.writeOp
        rw [if_pos sbl]
      rw [op]
      by_cases aligned : addr % 4 = 0
      · simp only [sbl, aligned, if_true, ne_eq, not_true_eq_false, if_false]
        obtain ⟨out, t, run, possible, ran⟩ := rramWrite_cases e
          (issuer image (s.handles k) offset) (((s.handles k).imgStart + offset) % 2 ^ 32) bytes s
        exact .inr (.inr ⟨out, s, t, _, run, fits, .inl rfl, .refl s, rfl, fun _ => rfl,
          possible, ran⟩)
      · simp only [sbl, aligned, if_true, ne_eq, not_false_eq_true]
        obtain ⟨ok, r, run, eq, clean⟩ := malloc_run .aligned s
        have quiet : Quiet s r := by rw [eq]; exact quiet_oom s _
        have handles : r.handles = s.handles := by rw [eq]
        simp only [run, Act.andThen_ok, Act.ite_run]
        cases ok with
        | false =>
          refine .inr (.inl ⟨r, rfl, quiet, handles, fun hn => ?_⟩)
          cases (clean hn).1
        | true =>
          obtain ⟨out, t, run', possible, ran⟩ := rramWrite_cases e
            (issuer image (s.handles k) offset) (((s.handles k).imgStart + offset) % 2 ^ 32)
            bytes r
          simp only [if_true, Act.bind_run, Act.cleanUp, run', free, Act.emit_run]
          refine .inr (.inr ⟨out, r, t, _, ?_, fits, .inr rfl, quiet, handles,
            fun hn => (clean hn).2, possible, ran⟩)
          cases out <;> rfl
    · have op : (s.handles k).writeOp offset bytes =
          .write (((s.handles k).imgStart + offset) % 2 ^ 32) bytes := by
        unfold Client.writeOp
        rw [if_neg sbl]
      rw [op]
      simp only [sbl, if_false]
      obtain ⟨out, t, run, possible, ran⟩ := flashWrite_cases e
        (issuer image (s.handles k) offset) (((s.handles k).imgStart + offset) % 2 ^ 32) bytes s
      exact .inr (.inr ⟨out, s, t, _, run, fits, .inl rfl, .refl s, rfl, fun _ => rfl,
        possible, ran⟩)

/-- How an erase of a partition ends, and whether it reports success. -/
inductive EraseRun (e : Env) (who : Issuer) (c : Client) (offset nbytes : Nat) (s : St) :
    List Event → St → Bool → Prop
  /-- SBL has nothing to erase. -/
  | skipped (id : c.imgId = sblImgId) : EraseRun e who c offset nbytes s [] s true
  | done {t : St} (fits : EraseFits c offset nbytes)
      (possible : Possible e s (c.eraseOp offset nbytes) .done)
      (ran : Ran s (c.eraseOp offset nbytes) .done t) :
      EraseRun e who c offset nbytes s [.op who (c.eraseOp offset nbytes) .done] t true
  | failed {t : St} {out : Outcome} (bad : out ≠ .done) (fits : EraseFits c offset nbytes)
      (possible : Possible e s (c.eraseOp offset nbytes) out)
      (ran : Ran s (c.eraseOp offset nbytes) out t) :
      EraseRun e who c offset nbytes s [.op who (c.eraseOp offset nbytes) out] t false
  | refused (no : ¬EraseFits c offset nbytes) : EraseRun e who c offset nbytes s [] s false

/-- How a write to a partition ends, and whether it reports success. -/
inductive WriteRun (e : Env) (who : Issuer) (c : Client) (offset : Nat) (bytes : List UInt8)
    (s : St) : List Event → St → Bool → Prop
  | done {r t : St} {l : List Event} (fits : WriteFits c offset bytes.length)
      (around : Around who (c.writeOp offset bytes) .done l) (quiet : Quiet s r)
      (possible : Possible e r (c.writeOp offset bytes) .done)
      (ran : Ran r (c.writeOp offset bytes) .done t) :
      WriteRun e who c offset bytes s l t true
  | failed {r t : St} {l : List Event} {out : Outcome} (bad : out ≠ .done)
      (fits : WriteFits c offset bytes.length)
      (around : Around who (c.writeOp offset bytes) out l) (quiet : Quiet s r)
      (possible : Possible e r (c.writeOp offset bytes) out)
      (ran : Ran r (c.writeOp offset bytes) out t) :
      WriteRun e who c offset bytes s l t false
  | refused (no : ¬WriteFits c offset bytes.length) : WriteRun e who c offset bytes s [] s false
  | denied {t : St} (quiet : Quiet s t) :
      WriteRun e who c offset bytes s [.note (.denied .aligned)] t false

def resOf (ok : Bool) (r : Except Status Unit) : Prop :=
  match r with
  | .ok _ => ok = true
  | .error _ => ok = false

theorem erasePartition_run (e : Env) (image : Option Nat) {k : Nat} (offset nbytes : Nat) {s : St}
    (valid : handleValid s (some k) = true) :
    ∃ r t l ok, erasePartition e image (some k) offset nbytes s = ⟨r, t, l⟩ ∧ resOf ok r ∧
      EraseRun e (issuer image (s.handles k) offset) (s.handles k) offset nbytes s l t ok ∧
      t.handles = s.handles := by
  rcases erasePartition_cases e image k offset nbytes s with
    ⟨sbl, run⟩ | ⟨err, run, no⟩ | ⟨out, t, run, fits, possible, ran⟩
  · exact ⟨_, _, _, true, run, rfl, .skipped sbl, rfl⟩
  · exact ⟨_, _, _, false, run, rfl, .refused (no valid), rfl⟩
  · cases out with
    | done => exact ⟨_, _, _, true, run, rfl, .done fits possible ran, ran.handles⟩
    | failed left =>
      exact ⟨_, _, _, false, run, rfl, .failed (by simp) fits possible ran, ran.handles⟩
    | rejected =>
      exact ⟨_, _, _, false, run, rfl, .failed (by simp) fits possible ran, ran.handles⟩

theorem writePartition_run (e : Env) (image : Option Nat) {k : Nat} (offset : Nat)
    (bytes : List UInt8) (addr : Nat) {s : St} (valid : handleValid s (some k) = true) :
    ∃ r t l ok, writePartition e image (some k) offset bytes addr s = ⟨r, t, l⟩ ∧ resOf ok r ∧
      WriteRun e (issuer image (s.handles k) offset) (s.handles k) offset bytes s l t ok ∧
      t.handles = s.handles := by
  rcases writePartition_cases e image k offset bytes addr s with
    ⟨err, run, no⟩ | ⟨t, run, quiet, handles, -⟩ |
    ⟨out, r, t, l, run, fits, around, quiet, handles, -, possible, ran⟩
  · exact ⟨_, _, _, false, run, rfl, .refused (no valid), rfl⟩
  · exact ⟨_, _, _, false, run, rfl, .denied quiet, handles⟩
  · have kept := ran.handles.trans handles
    cases out with
    | done => exact ⟨_, _, _, true, run, rfl, .done fits around quiet possible ran, kept⟩
    | failed left =>
      exact ⟨_, _, _, false, run, rfl, .failed (by simp) fits around quiet possible ran, kept⟩
    | rejected =>
      exact ⟨_, _, _, false, run, rfl, .failed (by simp) fits around quiet possible ran, kept⟩

section runs
variable {e : Env} {who : Issuer} {c : Client} {offset nbytes : Nat} {bytes : List UInt8}
  {s t : St} {l : List Event} {ok : Bool}

/-- The one operation an erase may issue. -/
theorem EraseRun.touches (h : EraseRun e who c offset nbytes s l t ok) :
    Touches e (fun w o _ => w = who ∧ o = c.eraseOp offset nbytes ∧ EraseFits c offset nbytes)
      s l t := by
  cases h with
  | skipped id => exact .refl s
  | done fits possible ran => exact .op ⟨rfl, rfl, fits⟩ possible ran
  | failed bad fits possible ran => exact .op ⟨rfl, rfl, fits⟩ possible ran
  | refused no => exact .refl s

theorem Around.touches {op : Op} {out : Outcome} (h : Around who op out l)
    (possible : Possible e s op out) (ran : Ran s op out t) :
    Touches e (fun w o r => w = who ∧ o = op ∧ r = out) s l t := by
  have one : Touches e (fun w o r => w = who ∧ o = op ∧ r = out) s [.op who op out] t :=
    .op ⟨rfl, rfl, rfl⟩ possible ran
  rcases h with rfl | rfl
  · exact one
  · exact (Touches.note s _).trans (one.trans (.note t _))

theorem WriteRun.touches (h : WriteRun e who c offset bytes s l t ok) :
    Touches e (fun w o _ => w = who ∧ o = c.writeOp offset bytes ∧
      WriteFits c offset bytes.length) s l t := by
  cases h with
  | done fits around quiet possible ran =>
    have := (Touches.quiet quiet).trans (around.touches possible ran)
    exact this.mono fun w o r h => ⟨h.1, h.2.1, fits⟩
  | failed bad fits around quiet possible ran =>
    have := (Touches.quiet quiet).trans (around.touches possible ran)
    exact this.mono fun w o r h => ⟨h.1, h.2.1, fits⟩
  | refused no => exact .refl s
  | denied quiet => exact (Touches.quiet quiet).trans (.note t _)

end runs

theorem readPartition_cases (e : Env) (k offset count : Nat) (s : St) :
    ∃ ok bytes t, readPartition e (some k) offset count s = ⟨.ok (ok, bytes), t, []⟩ ∧
      Reads s t ∧ bytes.length = count := by
  unfold readPartition
  simp only [Act.bind_run, Act.read_run, Act.andThen_ok, Act.ite_run, List.nil_append]
  split
  · exact ⟨false, _, s, rfl, .refl s, length_load _ _ _⟩
  · split
    · obtain ⟨ok, m, t, run, reads, -⟩ := rramRead_cases s
      simp only [run, Act.andThen_ok, Act.pure_run, List.nil_append]
      exact ⟨ok, _, t, rfl, reads, length_load _ _ _⟩
    · obtain ⟨ok, m, t, run, reads, -⟩ := flashRead_cases e
        (((s.handles k).imgStart + offset) % 2 ^ 32) count s
      simp only [run, Act.andThen_ok, Act.pure_run, List.nil_append]
      exact ⟨ok, _, t, rfl, reads, length_load _ _ _⟩

end Qapp.Fw
