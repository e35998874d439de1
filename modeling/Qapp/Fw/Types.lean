import Mathlib.Algebra.Group.Nat.Defs
import Qapp.Lib.Nor
import Qapp.Lib.Traced

/-!
# State and events of the firmware upgrade

What `fw_upgrade.c` and `fw_upgrade_mem.c` keep in flash, in RRAM and in their
static variables, and the events their runs are judged by.
-/

namespace Qapp.Fw
open ByteMem

def blockSize : Nat := 4096

def sblImgId : Nat := 1
def fs1ImgId : Nat := 5
def appImgId : Nat := 10
def ramdumpImgId : Nat := 99
def userdataImgId : Nat := 101
def fs2ImgId : Nat := 128

/-- `FW_UPGRADE_FWD_IMAGE_UNUSED` -/
def imageUnused : Nat := 0xFFFFFFFF

/-- `FW_UPGRADE_MAGIC_V1`, also the FDT signature -/
def magicV1 : Nat := 0x54445746

def rankGolden : Nat := 0
def rankTrial : Nat := 0xFFFFFFFF
def statusValid : Nat := 1
def statusInvalid : Nat := 0

/-- `FW_UPGRADE_FWD_STATUS_UNUSED`, `FW_UPGRADE_FWD_TRIAL_UNUSED` and
`FW_UPGRADE_INVALID_FWD` -/
def unused : Nat := 0xFF

def maxFwd : Nat := 3
def maxImages : Nat := 30
def maxHandles : Nat := 10
def hashLen : Nat := 32
def hdrPart1Len : Nat := 17
def imageHdrLen : Nat := 184
def formatPartial : Nat := 1

def fdtStart : Nat := 0x208000
def fdtMaxEntry : Nat := 31
def sblMemSize : Nat := 0x8000

/-- The error codes of `fw_upgrade_status_code_t` that the code returns. -/
inductive Status
  | error | invalidParam | notInit | sessionNotStart | flashNotSupportFwUpgrade
  | flashInitTimeout | flashReadFail | flashWriteFail | flashEraseFail | flashNotEnoughSpace
  | flashCreatePartition | flashImageNotFound | flashErasePartition | flashWritePartition
  | getPartitionNull | reachMaxImageEntry | imageUnused | incorrectImageChecksum
  | incorrectImageHdr | insufficientMemory | incorrectImageLength | sblOnlyNotSupport
  | sblNotSupportUpgrade | sblNotEnoughSpace | invalidFdt | trialIsRunning
  deriving DecidableEq, Repr

inductive FwdInfo
  | magic | version | rank | status | totalImage
  deriving DecidableEq, Repr

/-- `offsetof` a field of `fwd` -/
def FwdInfo.offset : FwdInfo → Nat
  | .magic => 0
  | .version => 4
  | .rank => 8
  | .status => 12
  | .totalImage => 13

def FwdInfo.size : FwdInfo → Nat
  | .status | .totalImage => 1
  | _ => 4

/-- The fields of `fw_upgrade_image_hdr_t` that the code reads. -/
structure ImageHdr where
  magic : Nat
  imageId : Nat
  version : Nat
  diskSize : Nat
  imageLength : Nat
  hashType : Nat
  hash : List UInt8
  deriving DecidableEq, Repr

/-- `fu_partition_client_t` -/
structure Client where
  fwdIdx : Nat
  imgIdx : Nat
  imgId : Nat
  imgVersion : Nat
  imgStart : Nat
  imgSize : Nat
  refCount : Nat
  deriving DecidableEq, Repr

/-- `fw_upgrade_state_t`, without the four states that no assignment enters. -/
inductive FwState
  | notStart | getTrialInfo | eraseFwd | eraseSecondFs | prepareFs | prepareConnect | connect
  | receiveData | disconnectServer | processConfigFile | processImage | duplicateImages
  | duplicateFs | finish
  deriving DecidableEq, Repr

/-- A SHA-256 context: the bytes since the last `starts`, until it is finished. -/
structure Digest where
  bytes : List UInt8
  finished : Bool

/-- `fw_upgrade_context_t`. An allocated context has its `tmp_buffer` and its
`digest_ctx`. `configBuf` holds the `image_wrt_count` bytes received so far. The
session status is RUNNING as long as the context exists. `duplicateIndex` is the
loop variable of `fw_upgrade_process_duplicate_images`. -/
structure Cxt where
  isFirst : Bool
  bufLen : Nat
  bufOffset : Nat
  imageIndex : Nat
  imageWrtCount : Nat
  imageWrtLength : Nat
  totalImages : Nat
  hiddenImagesCount : Nat
  fwUpgradeState : FwState
  downloadFlag : Nat → Bool
  format : Nat
  trialMemStart : Nat
  trialMemSize : Nat
  trialFwdIdx : Nat
  trialSblStart : Nat
  trialSblSize : Nat
  trialSblIdx : Nat
  partitionHdl : Option Nat
  duplicateIndex : Nat
  digest : Digest
  configBuf : Option (List UInt8)

/-- `readFaults` and `opFaults` say which of the next device reads and writes or
erases fail, and what a failed one leaves behind; `oom` which allocations fail. -/
structure St where
  flash : Mem
  rram : Mem
  readFaults : List (Option Mem)
  opFaults : List (Option Mem)
  oom : List Bool
  handles : Nat → Client
  memParams : Bool
  fuInitialized : Bool
  fwdSupportNum : Nat
  cxt : Option Cxt
  imageHdr : Option (List ImageHdr)

/-- On whose behalf a device operation is done. Data of a header image is marked
with the image's index. -/
inductive Issuer
  | fwd (idx : Nat)
  | info (idx : Nat) (info : FwdInfo)
  | entry (idx slot : Nat)
  | image (index : Nat) (client : Client) (offset : Nat)
  | part (client : Client) (offset : Nat)
  | fde (idx : Nat)

inductive Op
  | erase (addr size : Nat)
  | write (addr : Nat) (bytes : List UInt8)
  | rramWrite (addr : Nat) (bytes : List UInt8)

inductive Outcome
  | done
  | failed (left : Mem)
  /-- The range is not on the device. -/
  | rejected

/-- What the code allocates. -/
inductive Block
  | memParams | context | tmpBuffer | digest | config | imageHdr | hashBuf | blockBuf | aligned
  deriving DecidableEq, Repr

/-- Events that only account for memory. -/
inductive Note
  | alloc (b : Block)
  | denied (b : Block)
  | free (b : Block)
  /-- The session context is used while it is NULL. -/
  | nullContext
  /-- `size` bytes are read from `offset` on of the packet. -/
  | packet (offset size : Nat)
  /-- `size` bytes are read through the NULL buffer. -/
  | nullBuffer (size : Nat)
  /-- An entry of the header array is read; `inside` if the array is there and has it. -/
  | header (index : Nat) (inside : Bool)

inductive Event
  | op (who : Issuer) (op : Op) (result : Outcome)
  /-- `fw_upgrade_session_init` has returned OK. -/
  | start
  | selected (fwdIdx start size : Nat)
  /-- A digest is compared with the expected one: the header's, or an image's. -/
  | hashed (image : Option Nat) (bytes : List UInt8) (equal : Bool)
  /-- The header is accepted: its entries as received and as aligned, and which of
  the images are downloaded. -/
  | images (raw hdrs : List ImageHdr) (flags : Nat → Bool)
  | created (image : Nat) (client : Client)
  | note (n : Note)
  /-- A system reset is scheduled. -/
  | reset

/-- The device and the parts of the platform that are not under verification.
`junk` is memory that is read before it is written. -/
structure Env where
  blocks : Nat
  blocks_lt : blocks < 2 ^ 20
  sha : List UInt8 → List UInt8
  junk : Mem
  /-- `flash_adapter_init` finds a device that is ready. -/
  flashReady : Bool := true

def Env.memSize (e : Env) : Nat := e.blocks * blockSize

/-- One call of `fw_upgrade_session_process`. `data` and `null` are the memory
from the data pointer and from address 0 on, and `wild` is what an entry outside
the header array reads as: all of it arbitrary beyond the `len` bytes. -/
structure Packet where
  offset : Nat
  len : Nat
  data : Mem
  null : Mem
  addr : Nat
  wild : Nat → ImageHdr

abbrev M := Traced.Act St Event Status

end Qapp.Fw
