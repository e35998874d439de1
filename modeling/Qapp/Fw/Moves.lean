import Qapp.Fw.Access

/-!
# The moves of an upload session

A step relation on the state and its trace. What holds throughout a session is shown of
the moves; that the code only makes these moves is proved once.
-/

namespace Qapp.Fw
open ByteMem Traced

/-- The trial FWD's block has been erased in this session. -/
def FwState.erased : FwState → Bool
  | .notStart | .getTrialInfo | .eraseFwd => false
  | _ => true

/-- The states that change partitions of the running FWD. -/
def FwState.bulk : FwState → Bool
  | .eraseSecondFs | .prepareFs | .duplicateFs => true
  | _ => false

theorem FwState.bulk_erased {x : FwState} (h : x.bulk = true) : x.erased = true := by
  cases x <;> first | rfl | cases h

/-- The events since the last session was started. -/
def session (h : List Event) : List Event :=
  h.foldl (fun l w => match w with
    | .start => []
    | w => l ++ [w]) []

/-- The states after the last image, in their order. -/
def FwState.phase : FwState → Nat
  | .duplicateImages => 1
  | .duplicateFs => 2
  | .finish => 3
  | _ => 0

/-- Where a state may lead without anything else happening. -/
structure Edge (c : Cxt) (state : FwState) : Prop where
  erased : state.erased = c.fwUpgradeState.erased
  eraseFwd : state = .eraseFwd → c.fwUpgradeState = .eraseFwd
  late : state.late = true → c.fwUpgradeState.late = true ∨
    c.isFirst = false ∧ c.totalImages ≤ c.imageIndex
  format : c.isFirst = false → c.format ≠ formatPartial →
    state = .prepareConnect ∨ state = .disconnectServer ∨ state = .duplicateImages →
    c.fwUpgradeState = state
  onward : c.fwUpgradeState.phase ≤ state.phase

/-- What is known when a header has been accepted. -/
structure Accepts (e : Env) (s : St) (h : List Event) (c : Cxt) (raw hdrs : List ImageHdr)
    (a : EntrySums) (state : FwState) : Prop where
  first : c.isFirst = true
  verified : ∃ b, .hashed none b true ∈ session h
  imageHdr : s.imageHdr = some hdrs
  checked : checkEntries raw ⟨0, 0, false, false, 0⟩ = (hdrs, some a)
  small : ∀ r ∈ raw, r.diskSize < 2 ^ 32 ∧ r.imageLength < 2 ^ 32
  total : c.totalImages = raw.length
  pos : 0 < raw.length
  app : a.sblImageExist = true → a.appImageExist = true
  fits : a.diskSize ≤ c.trialMemSize
  len : a.len ≤ a.diskSize
  sbl : selectSblTrialFde s.rram = some (c.trialSblIdx, c.trialSblStart, c.trialSblSize)
  sblFits : a.sblDiskSize ≤ c.trialSblSize
  loose : c.partitionHdl = none
  fresh : c.imageIndex = 0 ∧ c.imageWrtLength = 0 ∧ c.duplicateIndex = 0
  flags : c.format ≠ formatPartial → ∀ i, c.downloadFlag i = true
  next : if c.format = formatPartial then state = .disconnectServer
    else state = .receiveData ∨ state = .processImage

/-- The current image is `img`. -/
structure Current (s : St) (c : Cxt) (img : ImageHdr) : Prop where
  state : c.fwUpgradeState = .processImage
  first : c.isFirst = false
  lt : c.imageIndex < c.totalImages
  flag : c.downloadFlag c.imageIndex = true
  hdr : ∃ hdrs, s.imageHdr = some hdrs ∧ hdrs[c.imageIndex]? = some img

/-- The partition of a header image as it is placed. -/
structure Placed (e : Env) (s : St) (c : Cxt) (img : ImageHdr) (client : Client) : Prop where
  fwd : client.fwdIdx = c.trialFwdIdx
  id : client.imgId = img.imageId
  version : client.imgVersion = img.version
  fs1 : img.imageId = fs1ImgId → ∃ fs2, Lookup s.flash (activeFwd s.rram) fs2ImgId fs2 ∧
    img.diskSize ≤ fs2.imgSize ∧ client.imgStart = fs2.imgStart ∧ client.imgSize = fs2.imgSize
  sbl : img.imageId = sblImgId → client.imgStart = c.trialSblStart ∧ client.imgSize = img.diskSize
  mem : img.imageId ≠ fs1ImgId → img.imageId ≠ sblImgId →
    client.imgStart = c.trialMemStart ∧ client.imgSize = img.diskSize

/-- Where the next image goes once `img` is complete. -/
def Cxt.advanced (c : Cxt) (img : ImageHdr) : Nat :=
  if img.imageId ≠ fs1ImgId ∧ img.imageId ≠ sblImgId then
    (c.trialMemStart + img.diskSize) % 2 ^ 32
  else c.trialMemStart

/-- A write starts in one block and ends in another. -/
def Crosses (count len : Nat) : Prop := count / blockSize ≠ (count + len - 1) / blockSize

instance (count len : Nat) : Decidable (Crosses count len) :=
  inferInstanceAs (Decidable (_ ≠ _))

/-- The blocks `eraseAhead` erases: offset and size. -/
def aheadOffset (count : Nat) : Nat := (count / blockSize + 1) * blockSize

def aheadSize (count len : Nat) : Nat :=
  (blockCount (count + len) - (count / blockSize + 1)) * blockSize

/-- The bytes an image is verified over. -/
def hashPadding (format : Nat) (img : ImageHdr) : List UInt8 :=
  if format = formatPartial then
    List.replicate ((img.diskSize + 2 ^ 32 - img.imageLength) % 2 ^ 32) 0xFF
  else []

/-- An access the copy of an image makes. -/
inductive CopyOp (client : Client) (size : Nat) : Nat → Op → Prop
  | erase {offset : Nat} (lt : offset < size) (aligned : offset % blockSize = 0)
      (fits : EraseFits client offset blockSize) :
      CopyOp client size offset (client.eraseOp offset blockSize)
  | write {offset : Nat} {bytes : List UInt8} (lt : offset < size)
      (aligned : offset % blockSize = 0) (len : bytes.length = blockSize)
      (fits : WriteFits client offset bytes.length) :
      CopyOp client size offset (client.writeOp offset bytes)

/-- An access to a partition of the running FWD. -/
inductive PartOp (client : Client) : Nat → Op → Prop
  | all (fits : EraseFits client 0 client.imgSize) : PartOp client 0 (client.eraseOp 0 client.imgSize)
  | copy {offset size : Nat} {op : Op} (inside : offset + blockSize ≤ client.imgSize)
      (h : CopyOp client size offset op) : PartOp client offset op

/-- A field of the trial FWD that the header is written to. -/
def headerField (info : FwdInfo) : Prop := info = .magic ∨ info = .version ∨ info = .totalImage

/-- The ids of the entries `prepareFs` adds. -/
def isHidden (id : Nat) : Prop := id = fs2ImgId ∨ id = ramdumpImgId ∨ id = userdataImgId

/-- `retry` allows `DUPLICATE_IMAGES` to be entered again after a failure. -/
inductive Move (e : Env) (retry : Bool) : Config St Event → Config St Event → Prop
  | quiet {s t : St} {h : List Event} (q : Quiet s t) : Move e retry (s, h) (t, h)
  | note {s : St} {h : List Event} (n : Note) : Move e retry (s, h) (s, h ++ [.note n])
  | reset {s : St} {h : List Event} : Move e retry (s, h) (s, h ++ [.reset])
  | close {s : St} {h : List Event} (hs : Nat → Client) :
      Move e retry (s, h) ({ s with handles := hs, cxt := none, imageHdr := none }, h)
  | attach {s : St} {h : List Event} {c : Cxt} (hs : Nat → Client) (k : Nat) (hc : s.cxt = some c)
      (first : c.isFirst = true) :
      Move e retry (s, h)
        ({ s with handles := hs, cxt := some { c with partitionHdl := some k } }, h)
  | detach {s : St} {h : List Event} {c : Cxt} (hs : Nat → Client) (hc : s.cxt = some c) :
      Move e retry (s, h)
        ({ s with handles := hs, cxt := some { c with partitionHdl := none } }, h)
  | tune {s : St} {h : List Event} {c : Cxt} (bufLen bufOffset hidden : Nat)
      (config : Option (List UInt8)) (state : FwState) (hc : s.cxt = some c)
      (edge : Edge c state) :
      Move e retry (s, h) ({ s with cxt := some { c with
        bufLen := bufLen, bufOffset := bufOffset, hiddenImagesCount := hidden,
        configBuf := config, fwUpgradeState := state } }, h)
  /- Selecting the trial FWD -/
  | aim {s : St} {h : List Event} {c : Cxt} (fwdIdx start size : Nat) (hc : s.cxt = some c)
      (state : c.fwUpgradeState = .getTrialInfo) :
      Move e retry (s, h) ({ s with cxt := some { c with
        trialFwdIdx := fwdIdx, trialMemStart := start, trialMemSize := size } }, h)
  | select {s t : St} {h : List Event} {c : Cxt} {fwdIdx start size : Nat} (hc : s.cxt = some c)
      (state : c.fwUpgradeState = .getTrialInfo)
      (selected : (selectTrialFwd e s).res = .ok (fwdIdx, start, size)) (q : Quiet s t)
      (other : activeFwd s.rram ≠ fwdIdx) :
      Move e retry (s, h) ({ t with cxt := some { c with
        trialFwdIdx := fwdIdx, trialMemStart := start, trialMemSize := size,
        fwUpgradeState := .eraseFwd } }, h ++ [.selected fwdIdx start size])
  /- Preparing the trial FWD -/
  | erased {s t : St} {h : List Event} {c : Cxt} (hc : s.cxt = some c)
      (state : c.fwUpgradeState = .eraseFwd) (lt : c.trialFwdIdx < maxFwd)
      (possible : Possible e s (.erase (fwdAddr c.trialFwdIdx) blockSize) .done)
      (ran : Ran s (.erase (fwdAddr c.trialFwdIdx) blockSize) .done t) :
      Move e retry (s, h) ({ t with cxt := some { c with fwUpgradeState := .eraseSecondFs } },
        h ++ [.op (.fwd c.trialFwdIdx) (.erase (fwdAddr c.trialFwdIdx) blockSize) .done])
  | notErased {s t : St} {h : List Event} {c : Cxt} {out : Outcome} (hc : s.cxt = some c)
      (state : c.fwUpgradeState = .eraseFwd) (lt : c.trialFwdIdx < maxFwd) (bad : out ≠ .done)
      (possible : Possible e s (.erase (fwdAddr c.trialFwdIdx) blockSize) out)
      (ran : Ran s (.erase (fwdAddr c.trialFwdIdx) blockSize) out t) :
      Move e retry (s, h) (t,
        h ++ [.op (.fwd c.trialFwdIdx) (.erase (fwdAddr c.trialFwdIdx) blockSize) out])
  | bulk {s t : St} {h l : List Event} {c : Cxt} {id : Nat} {client : Client}
      (hc : s.cxt = some c) (state : c.fwUpgradeState.bulk = true)
      (which : id = fs2ImgId ∨ id = ramdumpImgId)
      (found : Lookup s.flash (activeFwd s.rram) id client)
      (touches : Touches e (fun who op _ => ∃ offset, who = .part client offset ∧
        PartOp client offset op) s l t) :
      Move e retry (s, h) (t, h ++ l)
  | hide {s t : St} {h : List Event} {c : Cxt} {client : Client} {out : Outcome}
      (hc : s.cxt = some c) (state : c.fwUpgradeState = .prepareFs) (first : c.isFirst = true)
      (fwd : client.fwdIdx = c.trialFwdIdx) (hidden : isHidden client.imgId)
      (entered : Entered e s client out t) :
      Move e retry (s, h) (t,
        h ++ [.op (.entry client.fwdIdx client.imgIdx) client.entryOp out])
  /- The header -/
  | early {s : St} {h : List Event} {c : Cxt} (imageHdr : Option (List ImageHdr))
      (format count total sblStart sblSize sblIdx : Nat) (flags : Nat → Bool) (digest : Digest)
      (hc : s.cxt = some c) (first : c.isFirst = true) :
      Move e retry (s, h) ({ s with
        imageHdr := imageHdr
        cxt := some { c with
          format := format, imageWrtCount := count, totalImages := total,
          trialSblStart := sblStart, trialSblSize := sblSize, trialSblIdx := sblIdx,
          downloadFlag := flags, digest := digest } }, h)
  | headerHash {s : St} {h : List Event} {c : Cxt} (bytes : List UInt8) (equal : Bool)
      (hc : s.cxt = some c) (first : c.isFirst = true) :
      Move e retry (s, h) (s, h ++ [.hashed none bytes equal])
  | field {s t : St} {h : List Event} {c : Cxt} {info : FwdInfo} {value : Nat} {out : Outcome}
      (hc : s.cxt = some c) (state : c.fwUpgradeState.erased = true) (first : c.isFirst = true)
      (lt : c.trialFwdIdx < maxFwd) (header : headerField info)
      (possible : Possible e s
        (.write (fwdAddr c.trialFwdIdx + info.offset) (leBytes info.size value)) out)
      (ran : Ran s (.write (fwdAddr c.trialFwdIdx + info.offset) (leBytes info.size value)) out t) :
      Move e retry (s, h) (t, h ++ [.op (.info c.trialFwdIdx info)
        (.write (fwdAddr c.trialFwdIdx + info.offset) (leBytes info.size value)) out])
  | accept {s : St} {h : List Event} {c : Cxt} {raw hdrs : List ImageHdr} {a : EntrySums}
      {state : FwState} (hc : s.cxt = some c) (erased : c.fwUpgradeState.erased = true)
      (accepts : Accepts e s h c raw hdrs a state) :
      Move e retry (s, h) ({ s with cxt := some { c with
        isFirst := false, fwUpgradeState := state } }, h ++ [.images raw hdrs c.downloadFlag])
  /- A partial upgrade passes over images -/
  | skipTo {s : St} {h : List Event} {c : Cxt} (index : Nat) (hc : s.cxt = some c)
      (state : c.fwUpgradeState = .prepareConnect) (loose : c.partitionHdl = none)
      (le : c.imageIndex ≤ index)
      (skipped : ∀ i, c.imageIndex ≤ i → i < index → c.downloadFlag i = false) :
      Move e retry (s, h) ({ s with cxt := some { c with imageIndex := index } }, h)
  | emptyFs1 {s t : St} {h : List Event} {c : Cxt} {client : Client} (hs : Nat → Client)
      (hc : s.cxt = some c) (state : c.fwUpgradeState = .prepareConnect)
      (loose : c.partitionHdl = none) (first : c.isFirst = false)
      (empty : ∀ hdrs img, s.imageHdr = some hdrs → hdrs[c.imageIndex]? = some img →
        img.imageId = fs1ImgId ∧ img.imageLength = 0)
      (fwd : client.fwdIdx = c.trialFwdIdx) (id : client.imgId = fs1ImgId)
      (entered : Entered e s client .done t) :
      Move e retry (s, h) ({ t with
        handles := hs, cxt := some { c with imageIndex := c.imageIndex + 1 } },
        h ++ [.op (.entry client.fwdIdx client.imgIdx) client.entryOp .done,
          .created c.imageIndex client])
  /- An image -/
  | begin {s : St} {h : List Event} {c : Cxt} {img : ImageHdr} (hc : s.cxt = some c)
      (current : Current s c img) (len : c.imageWrtLength = 0) :
      Move e retry (s, h) ({ s with cxt := some { c with
        imageWrtCount := 0, imageWrtLength := img.imageLength } }, h)
  | noEntry {s t : St} {h : List Event} {c : Cxt} {client : Client} {out : Outcome}
      (hc : s.cxt = some c) (state : c.fwUpgradeState.erased = true)
      (fwd : client.fwdIdx = c.trialFwdIdx) (bad : out ≠ .done)
      (entered : Entered e s client out t) :
      Move e retry (s, h) (t,
        h ++ [.op (.entry client.fwdIdx client.imgIdx) client.entryOp out])
  | place {s t u : St} {h l : List Event} {c : Cxt} {img : ImageHdr} {client : Client}
      {ready : Bool} {k : Nat} {d : Digest} (hs : Nat → Client) (hc : s.cxt = some c)
      (current : Current s c img) (count : c.imageWrtCount = 0)
      (len : c.imageWrtLength = img.imageLength) (placed : Placed e s c img client)
      (entered : Entered e s client .done t)
      (first : if img.imageId = fs1ImgId then l = [] ∧ u = t ∧ ready = true
        else EraseRun e (.image c.imageIndex client 0) client 0 blockSize t l u ready)
      (handle : hs k = client)
      (reset : ready = true → 0 < img.imageLength → d = .starts) :
      Move e retry (s, h) ({ u with
        handles := hs
        cxt := some { c with partitionHdl := some k, digest := d } },
        h ++ [.op (.entry client.fwdIdx client.imgIdx) client.entryOp .done,
          .created c.imageIndex client] ++ l)
  | chunk {s a b n : St} {h la lb ln : List Event} {c : Cxt} {img : ImageHdr} {client : Client}
      {bytes : List UInt8} {ready : Bool} (bufOffset : Nat) (hc : s.cxt = some c)
      (current : Current s c img) (part : s.partition = some client) (ne : bytes ≠ [])
      (fit : c.imageWrtCount + bytes.length ≤ c.imageWrtLength)
      (ahead : if Crosses c.imageWrtCount bytes.length then
          EraseRun e (.image c.imageIndex client (aheadOffset c.imageWrtCount)) client
            (aheadOffset c.imageWrtCount) (aheadSize c.imageWrtCount bytes.length) s la a true
        else la = [] ∧ a = s)
      (write : WriteRun e (.image c.imageIndex client c.imageWrtCount) client c.imageWrtCount bytes
        a lb b true)
      (next : if (c.imageWrtCount + bytes.length) % blockSize = 0 ∧
            c.imageWrtCount + bytes.length < c.imageWrtLength then
          EraseRun e (.image c.imageIndex client (c.imageWrtCount + bytes.length)) client
            (c.imageWrtCount + bytes.length) blockSize b ln n ready
        else ln = [] ∧ n = b) :
      Move e retry (s, h) ({ n with cxt := some { c with
        bufOffset := bufOffset
        imageWrtCount := c.imageWrtCount + bytes.length
        digest := c.digest.update bytes } }, h ++ la ++ lb ++ ln)
  | spoil {s a b : St} {h la lb : List Event} {c : Cxt} {img : ImageHdr} {client : Client}
      {bytes : List UInt8} {ok : Bool} (bufOffset : Nat) (hc : s.cxt = some c)
      (current : Current s c img) (part : s.partition = some client)
      (fit : c.imageWrtCount + bytes.length ≤ c.imageWrtLength)
      (ahead : if Crosses c.imageWrtCount bytes.length then
          EraseRun e (.image c.imageIndex client (aheadOffset c.imageWrtCount)) client
            (aheadOffset c.imageWrtCount) (aheadSize c.imageWrtCount bytes.length) s la a ok
        else la = [] ∧ a = s ∧ ok = true)
      (write : if ok = true then
          WriteRun e (.image c.imageIndex client c.imageWrtCount) client c.imageWrtCount bytes
            a lb b false
        else lb = [] ∧ b = a) :
      Move e retry (s, h) ({ b with cxt := some { c with
        bufOffset := bufOffset
        digest := c.digest.update bytes } }, h ++ la ++ lb)
  | lost {s : St} {h : List Event} {c : Cxt} {bytes : List UInt8} (bufOffset : Nat)
      (hc : s.cxt = some c) (state : c.fwUpgradeState = .processImage)
      (loose : c.partitionHdl = none) :
      Move e retry (s, h) ({ s with cxt := some { c with
        bufOffset := bufOffset
        digest := c.digest.update bytes } }, h)
  | complete {s t : St} {h l : List Event} {c : Cxt} {img : ImageHdr} {client : Client}
      (hs : Nat → Client) (hc : s.cxt = some c) (current : Current s c img)
      (part : s.partition = some client) (pos : 0 < c.imageWrtLength)
      (full : c.imageWrtLength ≤ c.imageWrtCount) (notes : ∀ w ∈ l, ∃ n, w = .note n)
      (q : Quiet s t)
      (hash : img.hash =
        (c.digest.update (hashPadding c.format img)).finish e) :
      Move e retry (s, h) ({ t with
        handles := hs
        cxt := some { c with
          partitionHdl := none
          trialMemStart := c.advanced img
          imageIndex := c.imageIndex + 1
          imageWrtLength := 0
          digest := { c.digest.update (hashPadding c.format img) with finished := true } } },
        h ++ l ++ [.hashed (some c.imageIndex)
          (c.digest.update (hashPadding c.format img)).bytes true])
  | giveUp {s t : St} {h l : List Event} {c : Cxt} {d : Digest} (hs : Nat → Client)
      (hc : s.cxt = some c) (state : c.fwUpgradeState = .processImage)
      (events : ∀ w ∈ l, (∃ n, w = .note n) ∨ ∃ i b, w = .hashed (some i) b false)
      (q : Quiet s t) :
      Move e retry (s, h) ({ t with
        handles := hs
        cxt := some { c with partitionHdl := none, digest := d } }, h ++ l)
  | skipEmpty {s : St} {h : List Event} {c : Cxt} {img : ImageHdr} (hs : Nat → Client)
      (hc : s.cxt = some c) (current : Current s c img) (empty : img.imageLength = 0)
      (len : c.imageWrtLength = 0) (format : c.format ≠ formatPartial) :
      Move e retry (s, h) ({ s with
        handles := hs
        cxt := some { c with
          partitionHdl := none
          trialMemStart := c.advanced img
          imageIndex := c.imageIndex + 1
          imageWrtLength := 0 } }, h)
  /- Images taken over from the running firmware -/
  | dupBegin {s : St} {h : List Event} {c : Cxt} (hc : s.cxt = some c)
      (state : c.fwUpgradeState = .duplicateImages)
      (again : retry = true ∨ c.duplicateIndex = 0) :
      Move e retry (s, h) ({ s with cxt := some { c with duplicateIndex := 0 } }, h)
  | dupPlace {s t : St} {h : List Event} {c : Cxt} {img : ImageHdr} {hdrs : List ImageHdr}
      {client : Client} {k : Nat} (hs : Nat → Client) (hc : s.cxt = some c)
      (state : c.fwUpgradeState = .duplicateImages) (loose : c.partitionHdl = none)
      (imageHdr : s.imageHdr = some hdrs) (hdr : hdrs[c.duplicateIndex]? = some img)
      (flag : c.downloadFlag c.duplicateIndex = false) (special : isSpecial img.imageId = false)
      (fwd : client.fwdIdx = c.trialFwdIdx) (id : client.imgId = img.imageId)
      (start : client.imgStart = c.trialMemStart) (size : client.imgSize = img.diskSize)
      (entered : Entered e s client .done t) (handle : hs k = client) :
      Move e retry (s, h) ({ t with
        handles := hs, cxt := some { c with partitionHdl := some k } },
        h ++ [.op (.entry client.fwdIdx client.imgIdx) client.entryOp .done,
          .created c.duplicateIndex client])
  | dupWork {s t : St} {h l : List Event} {c : Cxt} {img : ImageHdr} {hdrs : List ImageHdr}
      {client : Client} (hc : s.cxt = some c)
      (state : c.fwUpgradeState = .duplicateImages) (part : s.partition = some client)
      (imageHdr : s.imageHdr = some hdrs) (hdr : hdrs[c.duplicateIndex]? = some img)
      (touches : Touches e (fun who op _ => ∃ offset,
        who = .image c.duplicateIndex client offset ∧ CopyOp client img.diskSize offset op)
        s l t) :
      Move e retry (s, h) (t, h ++ l)
  | dupNext {s : St} {h : List Event} {c : Cxt} {img : ImageHdr} {hdrs : List ImageHdr}
      (hs : Nat → Client) (hc : s.cxt = some c)
      (state : c.fwUpgradeState = .duplicateImages) (held : c.partitionHdl ≠ none)
      (imageHdr : s.imageHdr = some hdrs) (hdr : hdrs[c.duplicateIndex]? = some img)
      (flag : c.downloadFlag c.duplicateIndex = false) (special : isSpecial img.imageId = false) :
      Move e retry (s, h) ({ s with
        handles := hs
        cxt := some { c with
          partitionHdl := none
          trialMemStart := (c.trialMemStart + img.diskSize) % 2 ^ 32
          duplicateIndex := c.duplicateIndex + 1 } }, h)
  | dupSkip {s : St} {h : List Event} {c : Cxt} {img : ImageHdr} {hdrs : List ImageHdr}
      (hc : s.cxt = some c)
      (state : c.fwUpgradeState = .duplicateImages) (loose : c.partitionHdl = none)
      (imageHdr : s.imageHdr = some hdrs) (hdr : hdrs[c.duplicateIndex]? = some img)
      (kept : c.downloadFlag c.duplicateIndex = true ∨ isSpecial img.imageId = true) :
      Move e retry (s, h) ({ s with cxt := some { c with
        duplicateIndex := c.duplicateIndex + 1 } }, h)
  /- The end -/
  | validate {s t : St} {h : List Event} {c : Cxt} {out : Outcome} (hc : s.cxt = some c)
      (state : c.fwUpgradeState = .finish) (lt : c.trialFwdIdx < maxFwd)
      (possible : Possible e s (.write (fwdAddr c.trialFwdIdx + FwdInfo.offset .status)
        (leBytes (FwdInfo.size .status) statusValid)) out)
      (ran : Ran s (.write (fwdAddr c.trialFwdIdx + FwdInfo.offset .status)
        (leBytes (FwdInfo.size .status) statusValid)) out t) :
      Move e retry (s, h) (t, h ++ [.op (.info c.trialFwdIdx .status)
        (.write (fwdAddr c.trialFwdIdx + FwdInfo.offset .status)
          (leBytes (FwdInfo.size .status) statusValid)) out])
  | fde {s t : St} {h : List Event} {c : Cxt} {i : Nat} {bytes : List UInt8} {out : Outcome}
      (hc : s.cxt = some c) (state : c.fwUpgradeState = .finish)
      (possible : Possible e s (.rramWrite (fdeAddr i) bytes) out)
      (ran : Ran s (.rramWrite (fdeAddr i) bytes) out t) :
      Move e retry (s, h) (t, h ++ [.op (.fde i) (.rramWrite (fdeAddr i) bytes) out])

end Qapp.Fw
