import Qapp.Fw.Calls

/-!
# Where a partition access goes

The checks before an access add 32-bit numbers. What they let through, for any partition a
table can list and any offset and size.
-/

namespace Qapp.Fw
open ByteMem Traced

/-- The partition is an entry of a table. -/
def Client.Listed (c : Client) : Prop := ∃ m fwdIdx i, c = (fwdEntry m fwdIdx i).client fwdIdx i

/-- `k` is an open handle for `c`. -/
structure OpenAs (s : St) (k : Nat) (c : Client) : Prop where
  valid : handleValid s (some k) = true
  client : s.handles k = c

/-- The first byte of an operation and the number of bytes. -/
def Op.range : Op → Nat × Nat
  | .erase a n => (a, n)
  | .write a bs | .rramWrite a bs => (a, bs.length)

/-- What `fw_upgrade_read_partition` reads from the device, if it reads. -/
def readAccess (s : St) (hdl : Option Nat) (offset maxBytes : Nat) : Option (Nat × Nat) :=
  match hdl with
  | none => none
  | some k =>
    if memParametersValid s hdl offset maxBytes then
      some (((s.handles k).imgStart + offset) % 2 ^ 32, maxBytes)
    else none

/-- The bytes of a range, as the device of the partition gives them. -/
def Client.readDevice (c : Client) (e : Env) (range : Nat × Nat) : M (Bool × List UInt8) := do
  let (ok, m) ← if c.imgId = sblImgId then rramRead else flashRead e range.1 range.2
  pure (ok, load m range.1 range.2)

/-- The access is to the `nbytes` bytes from `offset` on of the partition, in exact numbers. -/
structure Confined (c : Client) (offset nbytes : Nat) (range : Nat × Nat) : Prop where
  inside : offset + nbytes ≤ c.imgSize
  unwrapped : c.imgStart + offset + nbytes ≤ 2 ^ 32
  range : range = (c.imgStart + offset, nbytes)

/-- Whatever else the state holds, every operation of the call is confined. -/
def EraseConfined (c : Client) (offset nbytes : Nat) : Prop :=
  ∀ e image s k, OpenAs s k c → ∀ who op out,
    .op who op out ∈ (erasePartition e image (some k) offset nbytes s).trace →
      Confined c offset nbytes op.range

def WriteConfined (c : Client) (offset nbytes : Nat) : Prop :=
  ∀ e image s k bytes addr, OpenAs s k c → bytes.length = nbytes → ∀ who op out,
    .op who op out ∈ (writePartition e image (some k) offset bytes addr s).trace →
      Confined c offset nbytes op.range

/-- The call reads its range from the device, which is confined, or reads nothing. -/
def ReadConfined (c : Client) (offset nbytes : Nat) : Prop :=
  ∀ e s k, OpenAs s k c →
    match readAccess s (some k) offset nbytes with
    | some range => Confined c offset nbytes range ∧
        readPartition e (some k) offset nbytes s = c.readDevice e range s
    | none => readPartition e (some k) offset nbytes s = ⟨.ok (false, load e.junk 0 nbytes), s, []⟩

/-- The end of the access does not wrap, or it is the end of the address space and the
partition reaches it. -/
def Unwrapped (c : Client) (offset nbytes : Nat) : Prop :=
  c.imgStart + offset + nbytes < 2 ^ 32 ∨
    c.imgStart + offset + nbytes = 2 ^ 32 ∧ 2 ^ 32 ≤ c.imgStart + c.imgSize

section Listed
variable {c : Client}

/-- All 32 bits of a block-aligned number. -/
theorem Client.Listed.start_lt (listed : c.Listed) : c.imgStart < 2 ^ 32 := by
  obtain ⟨m, fwdIdx, i, rfl⟩ := listed
  unfold Entry.client
  simp only
  split
  · exact Nat.mod_lt _ (by decide)
  · exact word_lt _ _

theorem Client.Listed.size_lt (listed : c.Listed) : c.imgSize < 2 ^ 32 := by
  obtain ⟨m, fwdIdx, i, rfl⟩ := listed
  unfold Entry.client
  simp only
  split
  · exact Nat.mod_lt _ (by decide)
  · exact word_lt _ _

theorem Client.Listed.aligned (listed : c.Listed) (id : c.imgId ≠ sblImgId) :
    c.imgStart % blockSize = 0 := by
  obtain ⟨m, fwdIdx, i, rfl⟩ := listed
  unfold Entry.client at id ⊢
  simp only at id ⊢
  rw [if_pos id, blockSize]
  omega

theorem Client.Listed.refCount (listed : c.Listed) : c.refCount = 1 := by
  obtain ⟨m, fwdIdx, i, rfl⟩ := listed
  rfl

/-- Some state opened it, with nothing that could fail. -/
theorem Client.Listed.openAs (listed : c.Listed) : OpenAs (setHandle 0 c plainDevice) 0 c := by
  constructor
  · simp [handleValid, setHandle, maxHandles, listed.refCount]
  · simp [setHandle]

end Listed

/-! ## What the checks let through -/

section Checks
variable {c : Client} {offset nbytes : Nat}

/-- An access that passes the check of reads and writes. -/
theorem confined_of_writeFits (listed : c.Listed) (fits : WriteFits c offset nbytes)
    (unwrapped : Unwrapped c offset nbytes) :
    Confined c offset nbytes ((c.imgStart + offset) % 2 ^ 32, nbytes) := by
  have := listed.start_lt
  have := listed.size_lt
  have some' := fits.pos
  have inside := fits.inside
  unfold Unwrapped at unwrapped
  have low : (c.imgStart + offset) % 2 ^ 32 = c.imgStart + offset := Nat.mod_eq_of_lt (by omega)
  rw [low]
  exact ⟨by omega, by omega, rfl⟩

theorem unwrapped_of_confined (listed : c.Listed) {range : Nat × Nat}
    (confined : Confined c offset nbytes range) : Unwrapped c offset nbytes := by
  have := listed.start_lt
  have := confined.inside
  have := confined.unwrapped
  unfold Unwrapped
  omega

/-- An erase that passes its check. -/
theorem confined_of_eraseFits (listed : c.Listed) (offset_lt : offset < 2 ^ 32)
    (nbytes_lt : nbytes < 2 ^ 32) (fits : EraseFits c offset nbytes)
    (unwrapped : Unwrapped c offset nbytes) :
    Confined c offset nbytes (c.eraseOp offset nbytes).range := by
  have := listed.size_lt
  have aligned := listed.aligned fits.id
  have size := fits.size
  have start := fits.start
  have some' := fits.pos
  have inside := fits.inside
  unfold Unwrapped at unwrapped
  have range : (c.eraseOp offset nbytes).range = (c.imgStart + offset, nbytes) := by
    have low : (c.imgStart + offset) % 2 ^ 32 = c.imgStart + offset := Nat.mod_eq_of_lt (by omega)
    unfold blockSize at aligned size start
    simp only [Client.eraseOp, Op.range, low, blockSize, Prod.mk.injEq]
    constructor <;> omega
  exact ⟨by omega, by omega, range⟩

theorem writeOp_range (c : Client) (offset : Nat) (bytes : List UInt8) :
    (c.writeOp offset bytes).range = ((c.imgStart + offset) % 2 ^ 32, bytes.length) := by
  unfold Client.writeOp
  split <;> rfl

/-- The operations of a call are the one that passes the check. -/
theorem erasePartition_ops {e : Env} {image : Option Nat} {s : St} {k : Nat}
    (opened : OpenAs s k c) {who : Issuer} {op : Op} {out : Outcome}
    (mem : .op who op out ∈ (erasePartition e image (some k) offset nbytes s).trace) :
    EraseFits c offset nbytes ∧ op = c.eraseOp offset nbytes := by
  obtain ⟨_, run⟩ | ⟨err, run, _⟩ | ⟨out', t, run, fits, _⟩ :=
    erasePartition_cases e image k offset nbytes s
  · rw [run] at mem
    cases mem
  · rw [run] at mem
    cases mem
  · rw [run, List.mem_singleton] at mem
    rw [opened.client] at mem fits
    cases mem
    exact ⟨fits, rfl⟩

theorem writePartition_ops {e : Env} {image : Option Nat} {s : St} {k addr : Nat}
    {bytes : List UInt8} (opened : OpenAs s k c) {who : Issuer} {op : Op} {out : Outcome}
    (mem : .op who op out ∈ (writePartition e image (some k) offset bytes addr s).trace) :
    WriteFits c offset bytes.length ∧ op = c.writeOp offset bytes := by
  obtain ⟨err, run, _⟩ | ⟨t, run, _⟩ | ⟨out', r, t, l, run, fits, around, _⟩ :=
    writePartition_cases e image k offset bytes addr s
  · rw [run] at mem
    cases mem
  · rw [run, List.mem_singleton] at mem
    cases mem
  · rw [run] at mem
    rw [opened.client] at fits around
    obtain rfl | rfl := around
    · rw [List.mem_singleton] at mem
      cases mem
      exact ⟨fits, rfl⟩
    · simp only [List.mem_cons, reduceCtorEq, List.not_mem_nil, or_false, false_or] at mem
      cases mem
      exact ⟨fits, rfl⟩

/-- What a read asks the device for is its access, and nothing if it has none. -/
theorem readPartition_eq (e : Env) {s : St} {k : Nat} (opened : OpenAs s k c) :
    readPartition e (some k) offset nbytes s =
      match readAccess s (some k) offset nbytes with
      | some range => c.readDevice e range s
      | none => ⟨.ok (false, load e.junk 0 nbytes), s, []⟩ := by
  rw [← opened.client]
  unfold readPartition readAccess Client.readDevice
  simp only [Act.bind_run, Act.read_run, Act.andThen_ok, List.nil_append]
  cases passes : memParametersValid s (some k) offset nbytes with
  | false => rfl
  | true => rfl

theorem readAccess_eq {s : St} {k : Nat} (opened : OpenAs s k c)
    (fits : WriteFits c offset nbytes) :
    readAccess s (some k) offset nbytes = some ((c.imgStart + offset) % 2 ^ 32, nbytes) := by
  rw [← opened.client] at fits ⊢
  exact if_pos ((writeFits_iff opened.valid).mpr fits)

theorem eraseConfined_iff (listed : c.Listed) (offset_lt : offset < 2 ^ 32)
    (nbytes_lt : nbytes < 2 ^ 32) : EraseConfined c offset nbytes ↔
      (EraseFits c offset nbytes → Unwrapped c offset nbytes) := by
  constructor
  · intro all fits
    have opened := listed.openAs
    obtain ⟨sbl, _⟩ | ⟨err, _, refused⟩ | ⟨out, t, run, _⟩ :=
      erasePartition_cases plainEnv none 0 offset nbytes (setHandle 0 c plainDevice)
    · rw [opened.client] at sbl
      exact absurd sbl fits.id
    · have unfit := refused opened.valid
      rw [opened.client] at unfit
      exact absurd fits unfit
    · exact unwrapped_of_confined listed
        (all plainEnv none _ 0 opened _ _ out (by rw [run]; exact List.mem_singleton_self _))
  · intro unwrapped e image s k opened who op out mem
    obtain ⟨fits, rfl⟩ := erasePartition_ops opened mem
    exact confined_of_eraseFits listed offset_lt nbytes_lt fits (unwrapped fits)

theorem Around.mem {who : Issuer} {op : Op} {out : Outcome} {l : List Event}
    (h : Around who op out l) : .op who op out ∈ l := by
  obtain rfl | rfl := h <;> simp

theorem writeConfined_iff (listed : c.Listed) : WriteConfined c offset nbytes ↔
    (WriteFits c offset nbytes → Unwrapped c offset nbytes) := by
  constructor
  · intro all fits
    have opened := listed.openAs
    have sized : (List.replicate nbytes (0 : UInt8)).length = nbytes := List.length_replicate
    obtain ⟨err, _, refused⟩ | ⟨t, _, _, _, denied⟩ | ⟨out, r, t, l, run, _, around, _⟩ :=
      writePartition_cases plainEnv none 0 offset (List.replicate nbytes 0) 0
        (setHandle 0 c plainDevice)
    · have unfit := refused opened.valid
      rw [opened.client, sized] at unfit
      exact absurd fits unfit
    · exact absurd rfl denied
    · exact unwrapped_of_confined listed
        (all plainEnv none _ 0 _ 0 opened sized _ _ out (by rw [run]; exact around.mem))
  · intro unwrapped e image s k bytes addr opened sized who op out mem
    obtain ⟨fits, rfl⟩ := writePartition_ops opened mem
    rw [sized] at fits
    rw [writeOp_range, sized]
    exact confined_of_writeFits listed fits (unwrapped fits)

theorem readConfined_iff (listed : c.Listed) : ReadConfined c offset nbytes ↔
    (WriteFits c offset nbytes → Unwrapped c offset nbytes) := by
  constructor
  · intro all fits
    have reads := all plainEnv _ 0 listed.openAs
    rw [readAccess_eq listed.openAs fits] at reads
    exact unwrapped_of_confined listed reads.1
  · intro unwrapped e s k opened
    have reads : readPartition e (some k) offset nbytes s = _ := readPartition_eq e opened
    cases access : readAccess s (some k) offset nbytes with
    | none =>
      rw [access] at reads
      exact reads
    | some range =>
      rw [access] at reads
      refine ⟨?_, reads⟩
      rw [readAccess] at access
      split at access
      next passes =>
        have fits := (writeFits_iff opened.valid).mp passes
        rw [opened.client] at fits access
        obtain rfl := Option.some.inj access
        exact confined_of_writeFits listed fits (unwrapped fits)
      next => cases access

end Checks

/-- The three functions keep to the partition exactly as long as the end of the access does not
wrap, unless their checks refuse it. -/
theorem accesses_confined_iff {c : Client} (listed : c.Listed) {offset nbytes : Nat}
    (offset_lt : offset < 2 ^ 32) (nbytes_lt : nbytes < 2 ^ 32) :
    (EraseConfined c offset nbytes ↔
      (EraseFits c offset nbytes → Unwrapped c offset nbytes)) ∧
    (WriteConfined c offset nbytes ↔
      (WriteFits c offset nbytes → Unwrapped c offset nbytes)) ∧
    (ReadConfined c offset nbytes ↔
      (WriteFits c offset nbytes → Unwrapped c offset nbytes)) :=
  ⟨eraseConfined_iff listed offset_lt nbytes_lt, writeConfined_iff listed, readConfined_iff listed⟩

/-- One block from block 16 on, for an application. -/
def sampleClient : Client :=
  (fwdEntry (store (fun _ => 0) (entryAddr 0 0) (entryBytes appImgId 1 (16 * blockSize) blockSize))
    0 0).client 0 0

theorem whole_block_confined : EraseConfined sampleClient 0 blockSize ∧
    WriteConfined sampleClient 0 blockSize ∧ ReadConfined sampleClient 0 blockSize := by
  have sound := @accesses_confined_iff sampleClient ⟨_, 0, 0, rfl⟩ 0 blockSize (by decide)
    (by decide)
  have unwrapped : Unwrapped sampleClient 0 blockSize := .inl (by decide)
  exact ⟨sound.1.mpr fun _ => unwrapped, sound.2.1.mpr fun _ => unwrapped,
    sound.2.2.mpr fun _ => unwrapped⟩

/-- From 64 KiB below the end of the 32-bit numbers a write goes to the first descriptor, and an
erase from the last block below it starts in front of the partition. -/
theorem wrapped_accesses_escape : ¬WriteConfined sampleClient (2 ^ 32 - 16 * blockSize) 4 ∧
    ¬ReadConfined sampleClient (2 ^ 32 - 16 * blockSize) 4 ∧
    ¬EraseConfined sampleClient (2 ^ 32 - blockSize) (2 * blockSize) := by
  have listed : sampleClient.Listed := ⟨_, 0, 0, rfl⟩
  have passes : WriteFits sampleClient (2 ^ 32 - 16 * blockSize) 4 := ⟨by decide, by decide⟩
  have wraps : ¬Unwrapped sampleClient (2 ^ 32 - 16 * blockSize) 4 := by
    unfold Unwrapped
    decide
  refine ⟨?_, ?_, ?_⟩
  · rw [writeConfined_iff listed]
    exact fun kept => wraps (kept passes)
  · rw [readConfined_iff listed]
    exact fun kept => wraps (kept passes)
  · rw [eraseConfined_iff listed (by decide) (by decide)]
    intro kept
    have fits : EraseFits sampleClient (2 ^ 32 - blockSize) (2 * blockSize) := by
      constructor <;> decide
    have unwrapped := kept fits
    unfold Unwrapped at unwrapped
    exact absurd unwrapped (by decide)

end Qapp.Fw
