import Qapp.Fw.Session

/-!
# `qcom_img_mgmt.c`

The handlers of the upload, state-write and erase requests. A request is what
`zcbor_map_decode_bulk` makes of it: the returned code, the number of decoded
keys, and the variables as it leaves them. `fits` says whether the encoded
response fits into its buffer.
-/

namespace Qapp.Fw
open ByteMem Traced

/-- The error codes of MCUmgr that are returned. -/
inductive MgmtErr
  | eok | eunknown | enomem | einval | etimeout | ebadstate | ebusy
  deriving DecidableEq, Repr

/-- The returned code, and the `rc` and `off` of the encoded response. -/
structure Answer where
  ret : MgmtErr
  rc : Option MgmtErr
  off : Option Nat
  deriving DecidableEq, Repr

def Answer.success (fits : Bool) (off : Option Nat) : Answer :=
  if fits then ⟨.eok, some .eok, off⟩ else ⟨.enomem, none, none⟩

def Answer.failure (fits : Bool) (err : MgmtErr) : Answer :=
  ⟨err, if fits then some err else none, none⟩

/-- The return before anything is encoded. -/
def Answer.invalid : Answer := ⟨.einval, none, none⟩

/-- The result of the bulk decoder: `rc` is 0 on success and negative otherwise. -/
structure Decoded (α : Type) where
  rc : Int
  le : rc ≤ 0
  decoded : Nat
  vars : α

/-- A request with so many known entries. -/
def Decoded.ok {α : Type} (decoded : Nat) (vars : α) : Decoded α :=
  ⟨0, Int.le_refl 0, decoded, vars⟩

/-- `off` and `data`; the other decoded values are not used. -/
structure Segment where
  off : Nat
  data : List UInt8
  deriving DecidableEq, Repr

abbrev UploadRequest := Decoded Segment
/-- `confirm` -/
abbrev StateWriteRequest := Decoded Bool
/-- `slot` -/
abbrev EraseRequest := Decoded Nat

/-- `upload_ctx.offset` next to the rest of the server. -/
structure Server (σ : Type) where
  session : σ
  offset : Nat

/-- A call of `fw_upgrade_session_process` and the error it returned, if any. -/
structure Call where
  offset : Nat
  data : List UInt8
  status : Option Status

structure Reply (σ : Type) where
  answer : Answer
  call : Option Call
  server : Server σ

/-- The switch over the error codes. -/
def mgmtErr : Status → MgmtErr
  | .incorrectImageChecksum | .insufficientMemory | .flashNotEnoughSpace => .enomem
  | .invalidParam | .incorrectImageHdr | .incorrectImageLength => .einval
  | .flashWriteFail | .flashEraseFail | .flashReadFail => .eunknown
  | .trialIsRunning => .ebusy
  | .sessionNotStart | .notInit => .ebadstate
  | .flashInitTimeout => .etimeout
  | _ => .eunknown

section Upload

variable {σ : Type} (process : Nat → List UInt8 → σ → Option Status × σ)

/-- Passes data on to the session. A success moves the expected offset to the end of
the data, `sent` is the end of the segment. -/
def passData (fits : Bool) (off : Nat) (data : List UInt8) (sent : Nat) (sv : Server σ) :
    Reply σ :=
  match process off data sv.session with
  | (some err, session) =>
    ⟨.failure fits (mgmtErr err), some ⟨off, data, some err⟩, { sv with session := session }⟩
  | (none, session) =>
    ⟨.success fits (some sent), some ⟨off, data, none⟩, ⟨session, (off + data.length) % 2 ^ 32⟩⟩

/-- What `qcom_img_mgmt_upload` does with a decoded segment. -/
def uploadSegment (fits : Bool) (seg : Segment) (sv : Server σ) : Reply σ :=
  let sv := if seg.off = 0 then { sv with offset := 0 } else sv
  let sent := (seg.off + seg.data.length) % 2 ^ 32
  if seg.off < sv.offset then
    if sent ≤ sv.offset then ⟨.success fits (some sv.offset), none, sv⟩
    else
      -- the skipped bytes are fewer than the segment has
      let newData := seg.data.drop (sv.offset - seg.off)
      if 0 < newData.length then passData process fits sv.offset newData sent sv
      else ⟨.success fits (some sent), none, sv⟩
  else if sv.offset < seg.off then ⟨.success fits (some sv.offset), none, sv⟩
  else if 0 < seg.data.length then passData process fits seg.off seg.data sent sv
  else ⟨.success fits (some sent), none, sv⟩

/-- `qcom_img_mgmt_upload` -/
def upload (fits : Bool) (r : UploadRequest) (sv : Server σ) : Reply σ :=
  if r.rc = 0 then uploadSegment process fits r.vars sv else ⟨.invalid, none, sv⟩

/-- Handles upload requests one after the other, each with whether its answer fits. -/
def serveUploads : List (UploadRequest × Bool) → Server σ → List (UploadRequest × Reply σ)
  | [], _ => []
  | (r, fits) :: rs, sv =>
    (r, upload process fits r sv) :: serveUploads rs (upload process fits r sv).server

end Upload

/-- What `qcom_img_mgmt_state_write` does with a decoded `confirm`. `garbage` is what
the uninitialized boot type of the acceptance holds. -/
def confirmImage (e : Env) (garbage : Nat) (fits confirm : Bool) : M Answer := do
  if confirm then
    match ← (sessionDone e garbage true).attempt with
    | .error _ => pure (.failure fits .eunknown)
    | .ok _ =>
      Act.emit .reset
      pure (.success fits none)
  else pure (.success fits none)

/-- `qcom_img_mgmt_state_write`. The code is taken for a `bool`, so that success reads
as false. -/
def stateWrite (e : Env) (garbage : Nat) (fits : Bool) (r : StateWriteRequest) : M Answer :=
  let ok := decide (r.rc ≠ 0)
  if !ok then pure .invalid else confirmImage e garbage fits r.vars

/-- What `qcom_img_mgmt_erase` does with a slot. The mapped error codes are positive, so
neither of the two negative ones that are looked for is found. -/
def eraseSlot (e : Env) (fits : Bool) (slot : Nat) : M Answer := do
  if (← Act.read).fwdSupportNum ≤ slot then pure (.failure fits .einval)
  else
    match ← (init e).attempt with
    | .error _ => pure (.failure fits .eunknown)
    | .ok _ =>
      match ← (eraseFwd e slot).attempt with
      | .error _ => pure (.failure fits .eunknown)
      | .ok _ => pure (.success fits none)

/-- The slot without a parameter. -/
def defaultSlot : Nat := 1

/-- `qcom_img_mgmt_erase`, with the same reading of the code as `stateWrite`. -/
def erase (e : Env) (fits : Bool) (r : EraseRequest) : M Answer :=
  let ok := decide (r.rc ≠ 0)
  eraseSlot e fits (if !ok ∨ r.decoded = 0 then defaultSlot else r.vars)

end Qapp.Fw
