import Qapp.Fw.Mem

/-!
# `fw_upgrade.c`

The upload session: one call of `sessionProcess` for each packet, which drives
the state machine until the packet is used up. Lengths and counts that cannot
exceed a received length are plain numbers; flash addresses and sums of header
fields are 32-bit.
-/

namespace Qapp.Fw
open ByteMem Traced

def getCxt : M Cxt := do
  match (← Act.read).cxt with
  | some c => pure c
  | none => Act.fail .sessionNotStart

def updateCxt (f : Cxt → Cxt) : M Unit := Act.update fun s => { s with cxt := s.cxt.map f }

/-- `fw_upgrade_set_state` -/
def setState (state : FwState) : M Unit := updateCxt fun c => { c with fwUpgradeState := state }

/-- `partition_hdl->ref_count = 0; partition_hdl = NULL` -/
def releasePartition : M Unit := Act.update fun s =>
  match s.cxt with
  | none => s
  | some c =>
    match c.partitionHdl with
    | none => s
    | some k => { releaseHandle k s with cxt := some { c with partitionHdl := none } }

/-- The client behind `partition_hdl`. -/
def St.partition (s : St) : Option Client := do
  let c ← s.cxt
  let k ← c.partitionHdl
  pure (s.handles k)

def openPartition (e : Env) (fwdIdx id : Nat) : M Client := do
  let k ← findPartition e fwdIdx id
  updateCxt fun c => { c with partitionHdl := some k }
  pure ((← Act.read).handles k)

/-- `image` is the header image the partition is for, if any. -/
def newPartition (e : Env) (image : Option Nat) (id version start size : Nat) : M Unit := do
  let c ← getCxt
  let k ← createPartition e c.trialFwdIdx id version start size
  updateCxt fun c => { c with partitionHdl := some k }
  match image with
  | some i => Act.emit (.created i ((← Act.read).handles k))
  | none => pure ()

/-! ## SHA-256 -/

def Digest.starts : Digest := ⟨[], false⟩

def Digest.update (d : Digest) (bytes : List UInt8) : Digest := { d with bytes := d.bytes ++ bytes }

/-- `mbedtls_sha256_finish`; a context that is finished already gives anything. -/
def Digest.finish (e : Env) (d : Digest) : List UInt8 :=
  if d.finished then load e.junk 0 hashLen else e.sha d.bytes

def digestStarts : M Unit := updateCxt fun c => { c with digest := .starts }

def digestUpdate (bytes : List UInt8) : M Unit :=
  updateCxt fun c => { c with digest := c.digest.update bytes }

def digestFinish (e : Env) : M (List UInt8) := do
  let c ← getCxt
  updateCxt fun c => { c with digest := { c.digest with finished := true } }
  pure (c.digest.finish e)

/-! ## Session start and end -/

/-- `fw_upgrade_session_fin`. `digestCtx` is false while it is not allocated yet. -/
def sessionFin (digestCtx : Bool) : M Unit := do
  let s ← Act.read
  match s.cxt with
  | none => Act.emit (.note .nullContext)
  | some c =>
    if c.configBuf.isSome then free .config
    free .tmpBuffer
  if s.imageHdr.isSome then
    free .imageHdr
    Act.update fun s => { s with imageHdr := none }
  if s.cxt.isSome then
    releasePartition
    if digestCtx then free .digest
    free .context
    Act.update fun s => { s with cxt := none }

/-- The context `fw_upgrade_session_init` sets up. -/
def freshCxt : Cxt where
  isFirst := true
  bufLen := 0
  bufOffset := 0
  imageIndex := 0
  imageWrtCount := 0
  imageWrtLength := 0
  totalImages := 0
  hiddenImagesCount := 0
  fwUpgradeState := .notStart
  downloadFlag := fun _ => true
  format := formatPartial
  trialMemStart := 0
  trialMemSize := 0
  trialFwdIdx := 0
  trialSblStart := 0
  trialSblSize := 0
  trialSblIdx := 0
  partitionHdl := none
  duplicateIndex := 0
  digest := .starts
  configBuf := none

/-- `fw_upgrade_session_init` -/
def sessionInit (e : Env) : M Unit := do
  match ← (init e).attempt with
  | .error _ =>
    sessionFin true
    Act.fail .flashInitTimeout
  | .ok _ =>
    if (← Act.read).cxt.isSome then
      -- the buffers are kept, `config_buf` and an open partition are forgotten
      Act.update fun s => { s with cxt := some freshCxt }
      Act.emit .start
    else if !(← malloc .context) then
      sessionFin true
      Act.fail .insufficientMemory
    else if !(← malloc .tmpBuffer) then
      free .context
      Act.fail .insufficientMemory
    else
      Act.update fun s => { s with cxt := some freshCxt }
      if !(← malloc .digest) then
        sessionFin false
        Act.fail .insufficientMemory
      else Act.emit .start

/-! ## The header -/

/-- A little-endian field of a byte string. -/
def field (b : List UInt8) (offset : Nat) : Nat := leNat ((b.drop offset).take 4)

def hdrMagic (b : List UInt8) : Nat := field b 0
def hdrVersion (b : List UInt8) : Nat := field b 4
def hdrFormat (b : List UInt8) : Nat := field b 8
def hdrLength (b : List UInt8) : Nat := field b 12
def hdrNumImages (b : List UInt8) : Nat := (b.getD 16 0).toNat

/-- `fw_upgrade_image_hdr_t` -/
def parseImageHdr (b : List UInt8) : ImageHdr where
  magic := field b 0
  imageId := field b 4
  version := field b 8
  diskSize := field b 140
  imageLength := field b 144
  hashType := field b 148
  hash := (b.drop 152).take hashLen

def parseImageHdrs (n : Nat) (b : List UInt8) : List ImageHdr :=
  (List.range n).map fun i => parseImageHdr (b.drop (i * imageHdrLen))

/-- `disk_size` aligned with the block size; the sum may wrap. -/
def alignDiskSize (d : Nat) : Nat :=
  (if d % blockSize ≠ 0 then (d + blockSize) % 2 ^ 32 else d) / blockSize * blockSize

/-- The local variables of the entry checks. -/
structure EntrySums where
  diskSize : Nat
  len : Nat
  sblImageExist : Bool
  appImageExist : Bool
  sblDiskSize : Nat

def isFs (id : Nat) : Bool := id == fs1ImgId || id == fs2ImgId

/-- One pass of the entry loop: the entry it leaves and the sums. -/
def checkEntry (h : ImageHdr) (a : EntrySums) : Option (ImageHdr × EntrySums) :=
  if h.imageId = 0 ∨ h.magic = 0 ∨ h.hashType = 0 ∨ h.diskSize = 0 ∨
      h.diskSize < h.imageLength then none
  else if h.imageId = sblImgId then
    some (h, { a with sblImageExist := true, sblDiskSize := h.diskSize })
  else
    let h := { h with diskSize := alignDiskSize h.diskSize }
    let a := if isFs h.imageId then a else
      { a with
        diskSize := (a.diskSize + h.diskSize) % 2 ^ 32
        len := (a.len + h.imageLength) % 2 ^ 32 }
    some (h, { a with appImageExist := a.appImageExist || h.imageId == appImgId })

/-- The entry loop. It leaves the entries it reached aligned. -/
def checkEntries : List ImageHdr → EntrySums → List ImageHdr × Option EntrySums
  | [], a => ([], some a)
  | h :: hs, a =>
    match checkEntry h a with
    | none => (h :: hs, none)
    | some (h', a') => (h' :: (checkEntries hs a').1, (checkEntries hs a').2)

/-- Collects the header: `none` while more of it has to come. -/
def receiveConfigFile (buf : Mem) (note : Nat → Event) : M (Option (List UInt8)) := do
  let c ← getCxt
  match c.configBuf with
  | none =>
    if c.bufLen < hdrPart1Len then Act.fail .incorrectImageHdr
    else
      Act.emit (note hdrPart1Len)
      let h := load buf 0 hdrPart1Len
      if ¬(0 < hdrNumImages h ∧ hdrNumImages h ≤ maxImages) then Act.fail .incorrectImageHdr
      else if hdrMagic h = 0 ∨ hdrLength h = 0 ∨ hdrFormat h = 0 then Act.fail .incorrectImageHdr
      else
        updateCxt fun c => { c with format := hdrFormat h }
        if hdrLength h ≠ hdrPart1Len + hdrNumImages h * imageHdrLen + hashLen then
          Act.fail .incorrectImageHdr
        else if !(← malloc .config) then Act.fail .insufficientMemory
        else
          let n := min c.bufLen (hdrLength h)
          Act.emit (note n)
          updateCxt fun c => { c with bufOffset := n, configBuf := some (load buf 0 n) }
          if c.bufLen < hdrLength h then
            updateCxt fun c => { c with imageWrtCount := c.bufLen }
            setState .receiveData
            pure none
          else pure (some (load buf 0 n))
  | some b =>
    let n := min c.bufLen (hdrLength b - c.imageWrtCount)
    Act.emit (note n)
    updateCxt fun c => { c with
      configBuf := some (b ++ load buf 0 n)
      imageWrtCount := c.imageWrtCount + n
      bufOffset := n }
    if c.imageWrtCount + n < hdrLength b then
      setState .receiveData
      pure none
    else pure (some (b ++ load buf 0 n))

/-- Hashes the blocks of a partition; an unreadable block is left out. -/
def hashBlocks (e : Env) (hdl : Nat) : Nat → Nat → M Unit
  | 0, _ => pure ()
  | n + 1, offset => do
    let (ok, bytes) ← readPartition e (some hdl) offset blockSize
    Act.when (ok = true) (digestUpdate bytes)
    hashBlocks e hdl n (offset + blockSize)

/-- Iterations of `for (offset = 0; offset < size; offset += block_size)`. -/
def blockCount (size : Nat) : Nat := (size + blockSize - 1) / blockSize

def setDownloadFlag (i : Nat) (flag : Bool) : M Unit :=
  updateCxt fun c => { c with downloadFlag := Function.update c.downloadFlag i flag }

/-- An id whose image has no place in the trial region. -/
def isSpecial (id : Nat) : Bool := isFs id || id == sblImgId

/-- An image need not be downloaded when the active partition has its hash. -/
def checkActive (e : Env) (activeFwd i : Nat) (h : ImageHdr) : M Unit := do
  match ← (findPartition e activeFwd h.imageId).attempt with
  | .error _ => pure ()
  | .ok k =>
    digestStarts
    hashBlocks e k (blockCount ((← Act.read).handles k).imgSize) 0
    Act.update (releaseHandle k)
    let hash ← digestFinish e
    Act.when (h.hash = hash) (setDownloadFlag i false)

/-- Which images a partial upgrade downloads: those that differ from the active ones. -/
def checkDownload (e : Env) (activeFwd : Nat) : Nat → List ImageHdr → M Unit
  | _, [] => pure ()
  | i, h :: hs => do
    setDownloadFlag i true
    Act.when (isSpecial h.imageId = false) (checkActive e activeFwd i h)
    checkDownload e activeFwd (i + 1) hs

/-- The checks on the sums of the entries, and the choice of the SBL slot. -/
def checkSums (a : EntrySums) : M Unit := do
  let c ← getCxt
  if a.sblImageExist && !a.appImageExist then Act.fail .sblOnlyNotSupport
  else if c.trialMemSize < a.diskSize then Act.fail .flashNotEnoughSpace
  else if a.diskSize < a.len then Act.fail .incorrectImageHdr
  else
    match selectSblTrialFde (← Act.read).rram with
    | none => Act.fail .sblNotSupportUpgrade
    | some (idx, start, size) =>
      updateCxt fun c => { c with
        trialSblIdx := idx
        trialSblStart := start
        trialSblSize := size }
      if size < a.sblDiskSize then Act.fail .sblNotEnoughSpace else pure ()

/-- The header goes to the trial FWD. -/
def writeFwdHeader (e : Env) (b : List UInt8) : M Unit := do
  let c ← getCxt
  setFwdInfo e c.trialFwdIdx .magic (hdrMagic b)
  setFwdInfo e c.trialFwdIdx .version (hdrVersion b)
  setFwdInfo e c.trialFwdIdx .totalImage ((hdrNumImages b + c.hiddenImagesCount) % 256)

def dropConfigBuf : M Unit := do
  let s ← Act.read
  if (s.cxt.bind Cxt.configBuf).isSome then
    free .config
    updateCxt fun c => { c with configBuf := none }

/-- What is done with the complete header `b`. -/
def acceptConfigFile (e : Env) (b : List UInt8) : M Unit := do
  let offset := hdrPart1Len + hdrNumImages b * imageHdrLen
  updateCxt fun c => { c with digest := ⟨b.take offset, true⟩ }
  let equal := (b.drop offset).take hashLen == e.sha (b.take offset)
  Act.emit (.hashed none (b.take offset) equal)
  if !equal then Act.fail .incorrectImageChecksum
  else
    (writeFwdHeader e b).orFail .flashWriteFail
    updateCxt fun c => { c with totalImages := hdrNumImages b }
    if !(← malloc .imageHdr) then
      Act.update fun s => { s with imageHdr := none }
      Act.fail .insufficientMemory
    else
      let raw := parseImageHdrs (hdrNumImages b) (b.drop hdrPart1Len)
      let (hdrs, sums) := checkEntries raw ⟨0, 0, false, false, 0⟩
      Act.update fun s => { s with imageHdr := some hdrs }
      match sums with
      | none => Act.fail .incorrectImageHdr
      | some a =>
        checkSums a
        dropConfigBuf
        let c ← getCxt
        if c.format ≠ formatPartial then
          updateCxt fun c => { c with
            isFirst := false
            fwUpgradeState := if c.bufLen ≤ c.bufOffset then .receiveData else .processImage }
          Act.emit (.images raw hdrs c.downloadFlag)
        else if !(← malloc .hashBuf) then Act.fail .insufficientMemory
        else
          checkDownload e (activeFwd (← Act.read).rram) 0 hdrs
          free .hashBuf
          let c ← getCxt
          updateCxt fun c => { c with isFirst := false, fwUpgradeState := .disconnectServer }
          Act.emit (.images raw hdrs c.downloadFlag)

/-- `fw_upgrade_process_config_file` -/
def processConfigFile (e : Env) (buf : Mem) (note : Nat → Event) : M Unit :=
  Act.cleanUp (do
    match ← receiveConfigFile buf note with
    | none => pure ()
    | some b => acceptConfigFile e b) dropConfigBuf

/-! ## The images -/

/-- `fw_upgrade_image_hdr` is allocated, and for more than `i` images. -/
def St.hasImageHdr (s : St) (i : Nat) : Bool :=
  s.imageHdr.isSome && decide (i < (s.cxt.map Cxt.totalImages).getD 0)

/-- An entry of `fw_upgrade_image_hdr`. -/
def readImageHdr (p : Packet) (i : Nat) : M ImageHdr := do
  let s ← Act.read
  Act.emit (.note (.header i (s.hasImageHdr i)))
  pure ((s.imageHdr.getD []).getD i (p.wild i))

/-- A partial upgrade hashes the rest of the partition, too. -/
def padHash (img : ImageHdr) : M Unit := do
  let c ← getCxt
  let pad := (img.diskSize + 2 ^ 32 - img.imageLength) % 2 ^ 32
  if c.format = formatPartial ∧ 0 < pad then
    if ← malloc .hashBuf then
      digestUpdate (List.replicate pad 0xFF)
      free .hashBuf
    else Act.fail .insufficientMemory
  else pure ()

/-- `fw_upgrade_verify_image_hash` -/
def verifyImageHash (e : Env) (img : ImageHdr) : M Unit := do
  let c ← getCxt
  padHash img
  let bytes := (← getCxt).digest.bytes
  let hash ← digestFinish e
  Act.emit (.hashed (some c.imageIndex) bytes (img.hash == hash))
  if img.hash == hash then pure () else Act.fail .incorrectImageChecksum

/-- The partition of FS1 is the running FS2; its size is fixed. -/
def createFs1 (e : Env) (img : ImageHdr) : M Unit := do
  let fs2 ← (openPartition e (activeFwd (← Act.read).rram) fs2ImgId).orFail .flashImageNotFound
  releasePartition
  if fs2.imgSize < img.diskSize then Act.fail .incorrectImageLength
  else
    let c ← getCxt
    (newPartition e (some c.imageIndex) img.imageId img.version fs2.imgStart fs2.imgSize).orFail
      .flashCreatePartition

/-- Creates the partition of an image and erases its first block. -/
def startImage (e : Env) (img : ImageHdr) : M Unit := do
  updateCxt fun c => { c with imageWrtCount := 0, imageWrtLength := img.imageLength }
  if img.imageId = fs1ImgId then createFs1 e img
  else
    let c ← getCxt
    let startAddr := if img.imageId = sblImgId then c.trialSblStart else c.trialMemStart
    (newPartition e (some c.imageIndex) img.imageId img.version startAddr img.diskSize).orFail
      .flashCreatePartition
    (erasePartition e (some c.imageIndex) (← getCxt).partitionHdl 0 blockSize).orFail
      .flashErasePartition

/-- Leaves an image that is complete. -/
def nextImage (img : ImageHdr) : M Unit := do
  releasePartition
  updateCxt fun c => { c with
    trialMemStart :=
      if img.imageId ≠ fs1ImgId ∧ img.imageId ≠ sblImgId then
        (c.trialMemStart + img.diskSize) % 2 ^ 32
      else c.trialMemStart
    imageIndex := c.imageIndex + 1
    imageWrtLength := 0 }

/-- Erases the further blocks a write reaches. -/
def eraseAhead (e : Env) (c : Cxt) (writeLen : Nat) : M Unit :=
  if c.imageWrtCount / blockSize ≠ (c.imageWrtCount + writeLen - 1) / blockSize then
    let firstBlock := c.imageWrtCount / blockSize + 1
    let lastBlock := blockCount (c.imageWrtCount + writeLen)
    erasePartition e (some c.imageIndex) c.partitionHdl (firstBlock * blockSize)
      ((lastBlock - firstBlock) * blockSize)
  else pure ()

/-- Writes what the packet has of the current image. `buf_offset` serves as
`internal_offset`, from which it is read and to which it is set back. -/
def writeImageData (e : Env) (p : Packet) : M Unit := do
  let c ← getCxt
  let left := c.imageWrtLength - c.imageWrtCount
  Act.when (c.format = formatPartial) (updateCxt fun c => { c with bufOffset := 0 })
  if c.format = formatPartial ∧ left < c.bufLen then Act.fail .incorrectImageLength
  else
    let offset := if c.format = formatPartial then 0 else c.bufOffset
    let writeLen := if c.format = formatPartial then c.bufLen else min (c.bufLen - offset) left
    let bytes := load p.data offset writeLen
    Act.emit (.note (.packet offset writeLen))
    digestUpdate bytes
    (eraseAhead e c writeLen).orFail .flashErasePartition
    (writePartition e (some c.imageIndex) c.partitionHdl c.imageWrtCount bytes
      (p.addr + offset)).orFail .flashWritePartition
    updateCxt fun c => { c with
      bufOffset := offset + writeLen
      imageWrtCount := c.imageWrtCount + writeLen }

/-- Verifies a complete image; true when it was the last one. -/
def finishImage (e : Env) (img : ImageHdr) : M Bool := do
  (verifyImageHash e img).cleanUp releasePartition
  nextImage img
  let c ← getCxt
  if c.format = formatPartial then
    setState .disconnectServer
    pure false
  else if c.totalImages ≤ c.imageIndex then
    setState .duplicateFs
    pure true
  else pure false

/-- Verifies the current image if it is complete. -/
def finishIfComplete (e : Env) (img : ImageHdr) : M Bool := do
  let c ← getCxt
  if c.imageWrtLength ≤ c.imageWrtCount then finishImage e img else pure false

/-- Erases the block the next write starts in. -/
def eraseNext (e : Env) : M Unit := do
  let c ← getCxt
  if c.imageWrtCount % blockSize = 0 ∧ 0 < c.imageWrtLength then
    erasePartition e (some c.imageIndex) c.partitionHdl c.imageWrtCount blockSize
  else pure ()

/-- `fw_upgrade_process_receive_image`. Each pass uses up data or an image. -/
def processReceiveImage (e : Env) (p : Packet) : Nat → M Unit
  | 0 => pure ()
  | fuel + 1 => do
    let c ← getCxt
    if c.format ≠ formatPartial ∧ c.bufLen ≤ c.bufOffset then pure ()
    else
      let img ← readImageHdr p c.imageIndex
      Act.when (c.imageWrtLength = 0) (startImage e img)
      if c.imageWrtLength = 0 ∧ c.format ≠ formatPartial ∧ img.imageLength = 0 then
        nextImage img
        let c ← getCxt
        if c.totalImages ≤ c.imageIndex then setState .duplicateFs
        else processReceiveImage e p fuel
      else
        Act.when (c.imageWrtLength = 0) digestStarts
        writeImageData e p
        let last ← finishIfComplete e img
        if last then pure ()
        else
          (eraseNext e).orFail .flashErasePartition
          if c.format = formatPartial then pure () else processReceiveImage e p fuel

/-! ## Copying from the running firmware -/

/-- Copies the blocks of FS1 to FS2. -/
def copyFs (e : Env) (hdl1 hdl2 : Nat) : Nat → Nat → M Unit
  | 0, _ => pure ()
  | n + 1, offset => do
    let (ok, buf) ← readPartition e (some hdl1) offset blockSize
    if !ok then Act.fail .flashReadFail
    else
      (erasePartition e none (some hdl2) offset blockSize).orFail .flashErasePartition
      (writePartition e none (some hdl2) offset buf 0).orFail .flashWritePartition
      copyFs e hdl1 hdl2 n (offset + blockSize)

/-- `fw_upgrade_process_duplicate_fs` -/
def processDuplicateFs (e : Env) : M Unit := do
  if !(← malloc .blockBuf) then Act.fail .insufficientMemory
  else
    let active := activeFwd (← Act.read).rram
    match ← (findPartition e active fs1ImgId).attempt with
    | .error _ =>
      free .blockBuf
      Act.fail .flashImageNotFound
    | .ok hdl1 =>
      match ← (findPartition e active fs2ImgId).attempt with
      | .error _ =>
        free .blockBuf
        Act.update (releaseHandle hdl1)
        Act.fail .flashImageNotFound
      | .ok hdl2 =>
        let count := blockCount ((← Act.read).handles hdl1).imgSize
        let r ← (copyFs e hdl1 hdl2 count 0).attempt
        free .blockBuf
        Act.update (releaseHandle hdl1)
        Act.update (releaseHandle hdl2)
        match r with
        | .ok _ => pure ()
        | .error err => Act.fail err

/-- Copies one image; a block that cannot be read is written as the buffer is. -/
def copyImage (e : Env) (index hdl : Nat) : Nat → Nat → M Unit
  | 0, _ => pure ()
  | n + 1, offset => do
    let (_, buf) ← readPartition e (some hdl) offset blockSize
    let trial := (← getCxt).partitionHdl
    (erasePartition e (some index) trial offset blockSize).orFail .flashErasePartition
    (writePartition e (some index) trial offset buf 0).orFail .flashWritePartition
    copyImage e index hdl n (offset + blockSize)

/-- The loop over the images that are not downloaded. A copy that fails does not
end the loop; its error is returned at the end. -/
def duplicateImages (e : Env) (active : Nat) : List ImageHdr → Option Status → M (Option Status)
  | [], ret => pure ret
  | img :: imgs, ret => do
    let c ← getCxt
    if !c.downloadFlag c.duplicateIndex && !isSpecial img.imageId then
      match ← (findPartition e active img.imageId).attempt with
      | .error _ => pure (some .incorrectImageHdr)
      | .ok hdl =>
        match ← (newPartition e (some c.duplicateIndex) img.imageId img.version c.trialMemStart
            img.diskSize).attempt with
        | .error _ =>
          Act.update (releaseHandle hdl)
          pure (some .flashCreatePartition)
        | .ok _ =>
          let r ← (copyImage e c.duplicateIndex hdl (blockCount img.diskSize) 0).attempt
          Act.update (releaseHandle hdl)
          releasePartition
          updateCxt fun c => { c with
            trialMemStart := (c.trialMemStart + img.diskSize) % 2 ^ 32
            duplicateIndex := c.duplicateIndex + 1 }
          duplicateImages e active imgs
            (match r with
              | .ok _ => ret
              | .error err => some err)
    else
      updateCxt fun c => { c with duplicateIndex := c.duplicateIndex + 1 }
      duplicateImages e active imgs ret

/-- `fw_upgrade_process_duplicate_images` -/
def processDuplicateImages (e : Env) : M Unit := do
  let s ← Act.read
  if !(← malloc .blockBuf) then
    releasePartition
    Act.fail .insufficientMemory
  else
    updateCxt fun c => { c with duplicateIndex := 0 }
    let ret ← duplicateImages e (activeFwd s.rram) (s.imageHdr.getD []) none
    releasePartition
    free .blockBuf
    match ret with
    | none => pure ()
    | some err => Act.fail err

/-! ## The state machine -/

/-- The flags of every session: AUTO_REBOOT and DUPLICATE_ACTIVE_FS. -/
def sessionFlags : Nat := 3

/-- The SBL descriptor of the trial, if the trial FWD has an SBL partition. -/
def updateSblFde (e : Env) (c : Cxt) : M Unit := do
  match ← (findPartition e c.trialFwdIdx sblImgId).attempt with
  | .ok k =>
    let _ ← (setSblTrialFde c.trialSblIdx ((← Act.read).handles k).imgVersion).attempt
    pure ()
  | .error _ => pure ()

/-- `fw_upgrade_session_finalize(FW_UPGRADE_OK_E)` in state FINISH. The result of
the writes is not looked at, and the handle of the SBL partition stays open. -/
def sessionFinalize (e : Env) : M Unit := do
  let c ← getCxt
  let _ ← (setFwdInfo e c.trialFwdIdx .status statusValid).attempt
  updateSblFde e c
  sessionFin true
  Act.when (sessionFlags % 2 = 1) (Act.emit .reset)

/-- A partition of the running FWD that the trial FWD takes over as it is. -/
def keepPartition (e : Env) (id : Nat) (c : Client) : M Unit := do
  releasePartition
  (newPartition e none id c.imgVersion c.imgStart c.imgSize).orFail .flashCreatePartition
  updateCxt fun c => { c with hiddenImagesCount := c.hiddenImagesCount + 1 }
  releasePartition

/-- The first word of the ramdump partition decides whether it is erased. -/
def clearRamdump (e : Env) (c : Client) : M Unit := do
  let hdl := (← getCxt).partitionHdl
  let (ok, bytes) ← readPartition e hdl 0 4
  if !ok then Act.fail .flashErasePartition
  else if leNat bytes ≠ 0xFFFFFFFF then
    (erasePartition e none hdl 0 c.imgSize).orFail .flashErasePartition
  else pure ()

def keepRamdump (e : Env) : M Unit := do
  match ← (openPartition e (activeFwd (← Act.read).rram) ramdumpImgId).attempt with
  | .error _ => pure ()
  | .ok ramdump =>
    clearRamdump e ramdump
    keepPartition e ramdumpImgId ramdump

def keepUserdata (e : Env) : M Unit := do
  match ← (openPartition e (activeFwd (← Act.read).rram) userdataImgId).attempt with
  | .error _ => pure ()
  | .ok userdata => keepPartition e userdataImgId userdata

/-- `FW_UPGRADE_STATE_PREPARE_FS_E`: the trial FWD's first entries. -/
def prepareFs (e : Env) : M Unit := do
  let fs1 ← (openPartition e (activeFwd (← Act.read).rram) fs1ImgId).orFail .flashImageNotFound
  keepPartition e fs2ImgId fs1
  keepRamdump e
  keepUserdata e
  setState .prepareConnect

/-- The first image from `i` on that is to be downloaded. -/
def skipImages (flag : Nat → Bool) (total : Nat) : Nat → Nat → Nat
  | 0, i => i
  | n + 1, i => if i < total ∧ !flag i then skipImages flag total n (i + 1) else i

/-- `FW_UPGRADE_STATE_PREPARE_CONNECT_E` -/
def prepareConnect (e : Env) (p : Packet) : M Unit := do
  let c ← getCxt
  if c.isFirst then setState .connect
  else
    updateCxt fun c => { c with
      imageIndex := skipImages c.downloadFlag c.totalImages c.totalImages c.imageIndex }
    let c ← getCxt
    let img ← readImageHdr p c.imageIndex
    if img.imageId = fs1ImgId ∧ img.imageLength = 0 then
      createFs1 e img
      releasePartition
      updateCxt fun c => { c with
        imageIndex := c.imageIndex + 1
        fwUpgradeState := .prepareConnect }
    else if c.totalImages ≤ c.imageIndex then setState .duplicateImages
    else setState .connect

/-- `FW_UPGRADE_STATE_GET_TRIAL_INFO_E` -/
def getTrialInfo (e : Env) : M Unit := do
  let (fwdIdx, start, size) ← (selectTrialFwd e).orFail .flashNotSupportFwUpgrade
  updateCxt fun c => { c with
    trialFwdIdx := fwdIdx
    trialMemStart := start
    trialMemSize := size }
  if activeFwd (← Act.read).rram = fwdIdx then Act.fail .trialIsRunning
  else
    Act.emit (.selected fwdIdx start size)
    setState .eraseFwd

/-- `FW_UPGRADE_STATE_ERASE_SECOND_FS_E` -/
def eraseSecondFs (e : Env) : M Unit := do
  let fs2 ← (openPartition e (activeFwd (← Act.read).rram) fs2ImgId).orFail .flashImageNotFound
  (erasePartition e none (← getCxt).partitionHdl 0 fs2.imgSize).orFail .flashErasePartition
  releasePartition
  setState .prepareFs

/-- Where the local `buffer` points: NULL, or into the packet from an offset on. -/
abbrev Buffer := Option Nat

def Packet.buffer (p : Packet) : Buffer → Mem
  | none => p.null
  | some offset => fun x => p.data (offset + x)

def Buffer.note : Buffer → Nat → Event
  | none, n => .note (.nullBuffer n)
  | some offset, n => .note (.packet offset n)

/-- One pass of the session loop: `none` when it sets `run = 0`. -/
def sessionStep (e : Env) (p : Packet) (buffer : Buffer) : M (Option Buffer) := do
  let c ← getCxt
  match c.fwUpgradeState with
  | .notStart =>
    setState .getTrialInfo
    pure (some buffer)
  | .getTrialInfo =>
    getTrialInfo e
    pure (some buffer)
  | .eraseFwd =>
    (eraseFwd e c.trialFwdIdx).orFail .flashEraseFail
    setState .eraseSecondFs
    pure (some buffer)
  | .eraseSecondFs =>
    eraseSecondFs e
    pure (some buffer)
  | .prepareFs =>
    prepareFs e
    pure (some buffer)
  | .prepareConnect =>
    prepareConnect e p
    pure (some buffer)
  | .connect =>
    setState .receiveData
    pure (some buffer)
  | .receiveData =>
    if p.len - c.bufOffset = 0 then pure none
    else
      updateCxt fun c => { c with
        bufLen := p.len - c.bufOffset
        bufOffset := 0
        fwUpgradeState := if c.isFirst then .processConfigFile else .processImage }
      pure (some (some c.bufOffset))
  | .processConfigFile =>
    processConfigFile e (p.buffer buffer) (Buffer.note buffer)
    pure (some buffer)
  | .processImage =>
    processReceiveImage e p (c.bufLen + c.totalImages + 2)
    let c ← getCxt
    Act.when (c.fwUpgradeState = .processImage) (setState .receiveData)
    pure (some buffer)
  | .disconnectServer =>
    setState .prepareConnect
    pure (some buffer)
  | .duplicateImages =>
    processDuplicateImages e
    setState .duplicateFs
    pure (some buffer)
  | .duplicateFs =>
    Act.when (sessionFlags / 2 % 2 = 1) (processDuplicateFs e)
    setState .finish
    pure (some buffer)
  | .finish =>
    sessionFinalize e
    pure none

def FwState.late : FwState → Bool
  | .duplicateImages | .duplicateFs | .finish => true
  | _ => false

/-- The session loop. It is left with `true`; with `false` it has used up `fuel`. -/
def sessionLoop (e : Env) (p : Packet) : Nat → Buffer → M Bool
  | 0, _ => pure false
  | fuel + 1, buffer => do
    let c ← getCxt
    if c.bufOffset ≤ p.len ∨ c.fwUpgradeState.late then
      match ← sessionStep e p buffer with
      | some buffer => sessionLoop e p fuel buffer
      | none => pure true
    else pure true

/-- `fw_upgrade_session_process` -/
def sessionProcess (e : Env) (fuel : Nat) (p : Packet) : M Bool := do
  Act.when (p.offset = 0) ((sessionInit e).orFail .sessionNotStart)
  let _ ← getCxt
  updateCxt fun c => { c with bufOffset := 0 }
  sessionLoop e p fuel none

end Qapp.Fw
