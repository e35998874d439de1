import Qapp.Fw.Flash

/-!
# `fw_upgrade_mem.c`

Firmware descriptors in flash, the descriptor table in RRAM, and the partitions
that are read and written through the ten client handles.
-/

namespace Qapp.Fw
open ByteMem Traced

/-- `image_entry` -/
structure Entry where
  imageId : Nat
  startBlock : Nat
  totalBlocks : Nat
  imgVersion : Nat
  deriving DecidableEq, Repr

def fwdAddr (fwdIdx : Nat) : Nat := blockSize * fwdIdx

def entryAddr (fwdIdx i : Nat) : Nat := fwdAddr fwdIdx + 32 + i * 16

def fwdEntry (m : Mem) (fwdIdx i : Nat) : Entry where
  imageId := word m (entryAddr fwdIdx i)
  startBlock := word m (entryAddr fwdIdx i + 4)
  totalBlocks := word m (entryAddr fwdIdx i + 8)
  imgVersion := word m (entryAddr fwdIdx i + 12)

def fwdField (m : Mem) (fwdIdx : Nat) (info : FwdInfo) : Nat :=
  leNat (load m (fwdAddr fwdIdx + info.offset) info.size)

/-- Block counts in the entry are bytes for SBL, which is in RRAM. -/
def Entry.client (t : Entry) (fwdIdx i : Nat) : Client where
  fwdIdx := fwdIdx
  imgIdx := i
  imgId := t.imageId
  imgVersion := t.imgVersion
  imgStart := if t.imageId ≠ sblImgId then t.startBlock * blockSize % 2 ^ 32 else t.startBlock
  imgSize := if t.imageId ≠ sblImgId then t.totalBlocks * blockSize % 2 ^ 32 else t.totalBlocks
  refCount := 1

/-- The first entry with this id. -/
def entryOf (m : Mem) (fwdIdx id : Nat) : Option Nat :=
  (List.range maxImages).find? fun i => (fwdEntry m fwdIdx i).imageId == id

/-! ## The descriptor table -/

def fdeAddr (i : Nat) : Nat := fdtStart + 32 + i * 32
def fdeId (m : Mem) (i : Nat) : Nat := word m (fdeAddr i)
def fdeRank (m : Mem) (i : Nat) : Nat := word m (fdeAddr i + 4)
def fdeImgAddr (m : Mem) (i : Nat) : Nat := word m (fdeAddr i + 12)

def fdeIdSbl : Nat := 0
def fdeIdApp : Nat := 2
def fdeRankAged : Nat := 0
def fdeRankGolden : Nat := 1
def fdeRankCurrent : Nat := 2
def fdeRankTrial : Nat := 3
def fdeStateInvalid : Nat := 0
def fdeStateNew : Nat := 3

def numFde (m : Mem) : Nat := word m (fdtStart + 4)

def fdtValid (m : Mem) : Bool :=
  word m fdtStart == magicV1 && numFde m != 0 && numFde m ≤ fdtMaxEntry

/-- The first descriptor table entry that passes a test. -/
def findFde (m : Mem) (p : Nat → Bool) : Option Nat := (List.range (numFde m)).find? p

def bootTypeGolden : Nat := 1
def bootTypeCurrent : Nat := 2
def bootTypeTrial : Nat := 4

/-- `fw_upgrade_get_active_fwd`. The second component is `*fwd_boot_type`. -/
def getActiveFwd (m : Mem) (fwdBootType : Option Nat) : Nat × Option Nat :=
  if fdtValid m then
    match findFde m fun i => fdeId m i == fdeIdApp with
    | none => (unused, fwdBootType)
    | some i =>
      match fwdBootType with
      | none => (fdeImgAddr m i % 256, none)
      | some _ =>
        if fdeRank m i = fdeRankGolden then (fdeImgAddr m i % 256, some bootTypeGolden)
        else if fdeRank m i = fdeRankCurrent then (fdeImgAddr m i % 256, some bootTypeCurrent)
        else if fdeRank m i = fdeRankTrial then (fdeImgAddr m i % 256, some bootTypeTrial)
        else (unused, fwdBootType)
  else (unused, fwdBootType)

/-- `fw_upgrade_get_active_fwd(NULL, NULL)` -/
def activeFwd (m : Mem) : Nat := (getActiveFwd m none).1

/-! ## Handles -/

/-- `fw_upgrade_validation` -/
def validation : M Unit := do
  let s ← Act.read
  if s.fuInitialized then pure () else Act.fail .notInit

theorem validation_run (s : St) :
    validation s = ⟨if s.fuInitialized then .ok () else .error .notInit, s, []⟩ := by
  unfold validation
  simp only [Act.bind_run, Act.read_run, Act.andThen_ok, Act.ite_run]
  split <;> rfl

/-- `fw_upgrade_get_partition_client_entry` -/
def freeHandle (s : St) : Option Nat :=
  (List.range maxHandles).find? fun k => (s.handles k).refCount == 0

/-- `fw_upgrade_partition_handle_validation` -/
def handleValid (s : St) (hdl : Option Nat) : Bool :=
  match hdl with
  | none => false
  | some k => k < maxHandles && 0 < (s.handles k).refCount

def setHandle (k : Nat) (c : Client) (s : St) : St :=
  { s with handles := Function.update s.handles k c }

/-- `ref_count = 0` -/
def releaseHandle (k : Nat) (s : St) : St :=
  setHandle k { s.handles k with refCount := 0 } s

/-- `fw_upgrade_mem_parameters_validation`. The sums are 32-bit. -/
def memParametersValid (s : St) (hdl : Option Nat) (offset count : Nat) : Bool :=
  match hdl with
  | none => false
  | some k =>
    count != 0 && handleValid s hdl &&
      ((s.handles k).imgStart + offset + count) % 2 ^ 32 ≤
        ((s.handles k).imgStart + (s.handles k).imgSize) % 2 ^ 32

/-! ## Firmware descriptors -/

/-- `fw_upgrade_erase_fwd` -/
def eraseFwd (e : Env) (fwdIdx : Nat) : M Unit := do
  validation
  if maxFwd ≤ fwdIdx then Act.fail .invalidParam
  else flashErase e (.fwd fwdIdx) fwdIdx 1

/-- `fw_upgrade_set_fwd_info` -/
def setFwdInfo (e : Env) (fwdIdx : Nat) (info : FwdInfo) (value : Nat) : M Unit := do
  validation
  if maxFwd ≤ fwdIdx then Act.fail .invalidParam
  else
    flashWrite e (.info fwdIdx info) (fwdAddr fwdIdx + info.offset) (leBytes info.size value)

/-- `fw_upgrade_get_fwd_info`: whether it succeeded, and the result variable,
which held `old`. -/
def getFwdInfo (e : Env) (fwdIdx : Nat) (info : FwdInfo) (old : Nat) : M (Bool × Nat) := do
  let s ← Act.read
  if s.fuInitialized && fwdIdx < maxFwd then
    let (ok, m) ← flashRead e (fwdAddr fwdIdx + info.offset) info.size
    pure (ok, fwdField m fwdIdx info)
  else pure (false, old)

/-- `fw_upgrade_get_partition_base_on_golden` -/
def getPartitionBaseOnGolden (e : Env) : M Nat := do
  let s ← Act.read
  if fdtValid s.rram then
    match findFde s.rram fun i => fdeId s.rram i == fdeIdApp && fdeRank s.rram i == fdeRankGolden with
    | some _ => pure 3
    | none =>
      let (ok, m) ← flashRead e (fwdAddr 0) 512
      if ok then
        if fwdField m 0 .magic = magicV1 ∧ fwdField m 0 .rank = rankGolden then pure 3 else pure 2
      else pure 1
  else pure 1

/-- Allocates `fu_mem_parameters` unless it is there. -/
def allocMemParams : M Unit := do
  let s ← Act.read
  if s.memParams then pure ()
  else if ← malloc .memParams then Act.update fun s => { s with memParams := true }
  else Act.fail .insufficientMemory

/-- `fw_upgrade_init` -/
def init (e : Env) : M Unit := do
  let s ← Act.read
  if s.fuInitialized then pure ()
  else if !e.flashReady then Act.fail .error
  else
    allocMemParams
    Act.update fun s => { s with
      handles := fun k => if k < maxHandles then { s.handles k with refCount := 0 }
        else s.handles k }
    let num ← getPartitionBaseOnGolden e
    Act.update fun s => { s with fwdSupportNum := num }
    if num ≠ 2 ∧ num ≠ 3 then Act.fail .flashNotSupportFwUpgrade
    else Act.update fun s => { s with fuInitialized := true }

/-- The outputs of the table scan. -/
structure Scan where
  trial : Nat
  current : Nat
  rank : Nat
  deriving DecidableEq, Repr

/-- A table the scan takes for a firmware: magic, status VALID, sane image count. -/
def bootable (magic status imageNums : Nat) : Bool :=
  magic == magicV1 && status == statusValid && 0 < imageNums && imageNums != 0xFF

/-- The body of the scan loop after its four reads. -/
def Scan.visit (a : Scan) (i magic rank status imageNums : Nat) : Scan :=
  if bootable magic status imageNums then
    if rank = rankTrial then { a with trial := i }
    else if a.rank < rank then { a with rank := rank, current := i }
    else a
  else a

/-- The scan loop: false when a read fails. -/
def scanLoop (e : Env) : List Nat → Scan → M (Bool × Scan)
  | [], a => pure (true, a)
  | i :: is, a => do
    let (ok₁, magic) ← getFwdInfo e i .magic 0
    if !ok₁ then pure (false, a)
    else
      let (ok₂, rank) ← getFwdInfo e i .rank 0
      if !ok₂ then pure (false, a)
      else
        let (ok₃, status) ← getFwdInfo e i .status 0
        if !ok₃ then pure (false, a)
        else
          let (ok₄, imageNums) ← getFwdInfo e i .totalImage 0
          if !ok₄ then pure (false, a)
          else scanLoop e is (a.visit i magic rank status imageNums)

/-- `fw_upgrade_get_trial_active_fwd_index`: whether it returned OK, and its outputs. -/
def getTrialActiveFwdIndex (e : Env) : M (Bool × Scan) := do
  let a : Scan := ⟨unused, 0, 0⟩
  match ← (init e).attempt with
  | .error _ => pure (false, a)
  | .ok _ =>
    let s ← Act.read
    if s.fwdSupportNum = 1 then pure (false, a)
    else if s.fwdSupportNum = 2 then
      let (ok, a) ← scanLoop e [0, 1] a
      pure (ok && a.trial != unused, a)
    else
      let (ok, rank) ← getFwdInfo e 0 .rank 0
      if !ok then pure (false, a)
      else
        let (ok, a) ← scanLoop e [1, 2] { a with rank := rank }
        pure (ok && a.trial != unused, a)

/-! ## Partitions -/

/-- `fw_upgrade_find_partition`. An opened partition is the index of its handle. -/
def findPartition (e : Env) (fwdIdx id : Nat) : M Nat := do
  validation
  if maxFwd ≤ fwdIdx then Act.fail .reachMaxImageEntry
  else
    match freeHandle (← Act.read) with
    | none => Act.fail .getPartitionNull
    | some k =>
      let (ok, m) ← flashRead e (fwdAddr fwdIdx) 512
      if !ok then Act.fail .flashReadFail
      else
        match entryOf m fwdIdx id with
        | none => Act.fail .reachMaxImageEntry
        | some i =>
          Act.update (setHandle k ((fwdEntry m fwdIdx i).client fwdIdx i))
          pure k

/-- `fw_upgrade_first_partition` -/
def firstPartition (e : Env) (fwdIdx : Nat) : M Nat := do
  validation
  if maxFwd ≤ fwdIdx then Act.fail .invalidParam
  else
    match freeHandle (← Act.read) with
    | none => Act.fail .error
    | some k =>
      let (ok, m) ← flashRead e (fwdAddr fwdIdx) 512
      if !ok then Act.fail .error
      else if fwdField m fwdIdx .totalImage = 0 then Act.fail .error
      else
        Act.update (setHandle k ((fwdEntry m fwdIdx 0).client fwdIdx 0))
        pure k

/-- `fw_upgrade_next_partition` -/
def nextPartition (e : Env) (curr : Nat) : M Nat := do
  validation
  let s ← Act.read
  if !handleValid s (some curr) then Act.fail .invalidParam
  else
    match freeHandle s with
    | none => Act.fail .getPartitionNull
    | some k =>
      let fwdIdx := (s.handles curr).fwdIdx
      let (ok, m) ← flashRead e (fwdAddr fwdIdx) 512
      if !ok then Act.fail .flashReadFail
      else
        let idx := (s.handles curr).imgIdx + 1
        if maxImages ≤ idx then Act.fail .reachMaxImageEntry
        else if (fwdEntry m fwdIdx idx).imageId = imageUnused then Act.fail .imageUnused
        else
          Act.update (setHandle k ((fwdEntry m fwdIdx idx).client fwdIdx idx))
          pure k

/-- The bytes of an `image_entry`; sizes are in blocks except for SBL. -/
def entryBytes (id version start size : Nat) : List UInt8 :=
  leBytes 4 id ++ leBytes 4 (if id ≠ sblImgId then start / blockSize else start) ++
    leBytes 4 (if id ≠ sblImgId then size / blockSize else size) ++ leBytes 4 version

/-- `fw_upgrade_create_partition` -/
def createPartition (e : Env) (fwdIdx id version start size : Nat) : M Nat := do
  validation
  if maxFwd ≤ fwdIdx then Act.fail .invalidParam
  else if id ≠ sblImgId ∧ (start % blockSize ≠ 0 ∨ size % blockSize ≠ 0) then
    Act.fail .invalidParam
  else
    match freeHandle (← Act.read) with
    | none => Act.fail .error
    | some k =>
      let (ok, m) ← flashRead e (fwdAddr fwdIdx) 512
      if !ok then Act.fail .error
      else
        match entryOf m fwdIdx imageUnused with
        | none => Act.fail .error
        | some i =>
          flashWrite e (.entry fwdIdx i) (entryAddr fwdIdx i) (entryBytes id version start size)
          Act.update (setHandle k ⟨fwdIdx, i, id, version, start, size, 1⟩)
          pure k

/-- Who a partition access is for: a header image, or the partition's own owner. -/
def issuer (image : Option Nat) (c : Client) (offset : Nat) : Issuer :=
  match image with
  | some i => .image i c offset
  | none => .part c offset

/-- `fw_upgrade_erase_partition`. `image` only marks the trace. -/
def erasePartition (e : Env) (image : Option Nat) (hdl : Option Nat) (offset nbytes : Nat) :
    M Unit := do
  let s ← Act.read
  match hdl with
  | none => Act.fail .invalidParam
  | some k =>
    if !handleValid s hdl then Act.fail .invalidParam
    else
      let c := s.handles k
      if c.imgId = sblImgId then pure ()
      else if nbytes = 0 ∨ nbytes % blockSize ≠ 0 ∨ offset % blockSize ≠ 0 then
        Act.fail .invalidParam
      else if c.imgSize < (offset + nbytes) % 2 ^ 32 then Act.fail .invalidParam
      else
        flashErase e (issuer image c offset) ((c.imgStart + offset) % 2 ^ 32 / blockSize)
          (nbytes / blockSize)

/-- `fw_upgrade_write_partition`. RRAM is written from an aligned copy when the
source, at `addr`, is not aligned. `image` only marks the trace. -/
def writePartition (e : Env) (image : Option Nat) (hdl : Option Nat) (offset : Nat)
    (bytes : List UInt8) (addr : Nat) : M Unit := do
  let s ← Act.read
  match hdl with
  | none => Act.fail .invalidParam
  | some k =>
    if !memParametersValid s hdl offset bytes.length then Act.fail .invalidParam
    else
      let c := s.handles k
      let startAddr := (c.imgStart + offset) % 2 ^ 32
      if c.imgId = sblImgId then
        if addr % 4 ≠ 0 then
          if ← malloc .aligned then
            (rramWrite (issuer image c offset) startAddr bytes).cleanUp (free .aligned)
            free .aligned
          else Act.fail .insufficientMemory
        else rramWrite (issuer image c offset) startAddr bytes
      else flashWrite e (issuer image c offset) startAddr bytes

/-- `fw_upgrade_read_partition`: whether it succeeded, and the buffer. -/
def readPartition (e : Env) (hdl : Option Nat) (offset maxBytes : Nat) :
    M (Bool × List UInt8) := do
  let s ← Act.read
  match hdl with
  | none => pure (false, load e.junk 0 maxBytes)
  | some k =>
    if !memParametersValid s hdl offset maxBytes then pure (false, load e.junk 0 maxBytes)
    else
      let c := s.handles k
      let startAddr := (c.imgStart + offset) % 2 ^ 32
      let (ok, m) ← if c.imgId = sblImgId then rramRead else flashRead e startAddr maxBytes
      pure (ok, load m startAddr maxBytes)

/-! ## Selecting, accepting and rejecting the trial firmware -/

/-- One of the four lookups of the start address: the end of a partition, if there
is one. -/
def partitionEnd (e : Env) (fwdIdx id imgStart : Nat) : M Nat := do
  match ← (findPartition e fwdIdx id).attempt with
  | .error _ => pure imgStart
  | .ok k =>
    let s ← Act.read
    Act.update (releaseHandle k)
    pure (max imgStart (((s.handles k).imgStart + (s.handles k).imgSize) % 2 ^ 32))

/-- `fw_upgrade_get_first_programming_image_start_address` -/
def getFirstProgrammingImageStartAddress (e : Env) : M Nat := do
  let current := activeFwd (← Act.read).rram
  let a ← partitionEnd e current fs1ImgId 0
  let a ← partitionEnd e current fs2ImgId a
  let a ← partitionEnd e current ramdumpImgId a
  let a ← partitionEnd e current userdataImgId a
  pure (max a (maxFwd * blockSize))

/-- The end of a partition that is not SBL, which is in a different area. -/
def Client.endAddr (c : Client) : Option Nat :=
  if c.imgId ≠ sblImgId then some ((c.imgStart + c.imgSize) % 2 ^ 32) else none

/-- The loop over the further partitions of a table. A table has at most 30. -/
def endAddrLoop (e : Env) : Nat → Nat → Nat → M Nat
  | 0, hdl, endAddr => do
    Act.update (releaseHandle hdl)
    pure endAddr
  | fuel + 1, hdl, endAddr => do
    match ← (nextPartition e hdl).attempt with
    | .error _ =>
      Act.update (releaseHandle hdl)
      pure endAddr
    | .ok next =>
      Act.update (releaseHandle hdl)
      let s ← Act.read
      endAddrLoop e fuel next (max endAddr ((s.handles next).endAddr.getD 0))

/-- `fw_upgrade_get_imageSet_end_addr` -/
def getImageSetEndAddr (e : Env) (fwdNum : Nat) : M Nat := do
  let (_, magic) ← getFwdInfo e fwdNum .magic 0
  if magic = magicV1 then
    let hdl ← (firstPartition e fwdNum).orFail .error
    let s ← Act.read
    endAddrLoop e maxImages hdl ((s.handles hdl).endAddr.getD 0)
  else Act.fail .error

/-- `fw_upgrade_select_trial_fwd`. On an error the caller uses none of the outputs. -/
def selectTrialFwd (e : Env) : M (Nat × Nat × Nat) := do
  let config := (← Act.read).fwdSupportNum
  if config = 1 then Act.fail .error
  else
    let imgStart ← getFirstProgrammingImageStartAddress e
    let (_, scan) ← getTrialActiveFwdIndex e
    if config = 2 then
      let fwdIndex := if scan.current = 0 then 1 else 0
      let memBlocks := (e.memSize + 2 ^ 32 - imgStart) % 2 ^ 32 / blockSize
      let size := memBlocks / config * blockSize
      let start := (imgStart + fwdIndex * size) % 2 ^ 32
      if fwdIndex = 1 then
        let endAddr ← getImageSetEndAddr e 0
        if start < endAddr then
          pure (fwdIndex, endAddr, (size + 2 ^ 32 - (endAddr - start)) % 2 ^ 32)
        else pure (fwdIndex, start, size)
      else pure (fwdIndex, start, size)
    else
      let fwdIndex := if scan.current = 0 then 1 else if scan.current = 1 then 2 else 1
      let endAddr ← getImageSetEndAddr e 0
      let memBlocks := (e.memSize + 2 ^ 32 - endAddr) % 2 ^ 32 / blockSize
      let size := memBlocks / (config - 1) * blockSize
      pure (fwdIndex, (endAddr + (fwdIndex - 1) * size) % 2 ^ 32, size)

/-- `fw_upgrade_select_sbl_trial_fde`: index, start address and size. -/
def selectSblTrialFde (m : Mem) : Option (Nat × Nat × Nat) :=
  if fdtValid m then
    (findFde m fun i => fdeId m i == fdeIdSbl && fdeRank m i == fdeRankAged).map fun i =>
      (i, fdeImgAddr m i, sblMemSize)
  else none

/-- A descriptor table entry with new rank, state and version. -/
def fdeUpdated (m : Mem) (i rank state version : Nat) : List UInt8 :=
  load m (fdeAddr i) 4 ++ leBytes 4 rank ++ load m (fdeAddr i + 8) 8 ++ leBytes 4 state ++
    leBytes 4 version ++ load m (fdeAddr i + 24) 8

/-- `fw_upgrade_set_sbl_trial_fde` -/
def setSblTrialFde (sblTrialIdx version : Nat) : M Unit := do
  let m := (← Act.read).rram
  if !fdtValid m then Act.fail .invalidFdt
  else if numFde m ≤ sblTrialIdx ∨ fdeId m sblTrialIdx ≠ fdeIdSbl ∨
      fdeRank m sblTrialIdx ≠ fdeRankAged then Act.fail .invalidParam
  else
    rramWrite (.fde sblTrialIdx) (fdeAddr sblTrialIdx)
      (fdeUpdated m sblTrialIdx fdeRankTrial fdeStateNew version)

/-- `fw_upgrade_reject_sbl_trial_fde` -/
def rejectSblTrialFde : M Unit := do
  let m := (← Act.read).rram
  if !fdtValid m then Act.fail .invalidFdt
  else
    match findFde m fun i => fdeId m i == fdeIdSbl && fdeRank m i == fdeRankTrial with
    | none => Act.fail .invalidFdt
    | some i =>
      rramWrite (.fde i) (fdeAddr i)
        (fdeUpdated m i fdeRankAged fdeStateInvalid (word m (fdeAddr i + 20)))

/-- `fw_upgrade_accept_trial_fwd`. `garbage` is what the uninitialized
`fwd_boot_type` holds. -/
def acceptTrialFwd (e : Env) (garbage : Nat) : M Unit := do
  let (ok, scan) ← getTrialActiveFwdIndex e
  if ok then
    let s ← Act.read
    if (getActiveFwd s.rram (some garbage)).2 = some bootTypeTrial then
      setFwdInfo e scan.trial .rank ((scan.rank + 1) % 2 ^ 32)
      if s.fwdSupportNum = 2 ∨ s.fwdSupportNum = 3 ∧ scan.current ≠ 0 then
        setFwdInfo e scan.current .status statusInvalid
      else pure ()
    else Act.fail .error
  else Act.fail .error

/-- `fw_upgrade_reject_trial_fwd`. The handle of the SBL partition stays open. -/
def rejectTrialFwd (e : Env) : M Unit := do
  let (ok, scan) ← getTrialActiveFwdIndex e
  if ok then
    setFwdInfo e scan.trial .status statusInvalid
    setFwdInfo e scan.trial .rank 1
    match ← (findPartition e scan.trial sblImgId).attempt with
    | .ok _ => rejectSblTrialFde
    | .error .reachMaxImageEntry => pure ()
    | .error err => Act.fail err
  else Act.fail .error

/-- `fw_upgrade_session_done` -/
def sessionDone (e : Env) (garbage : Nat) (result : Bool) : M Unit := do
  let (ok, _) ← getTrialActiveFwdIndex e
  if ok then
    if result then (acceptTrialFwd e garbage).orFail .error
    else (rejectTrialFwd e).orFail .error
  else Act.fail .error

end Qapp.Fw
