import Qapp.Fw.Areas

/-!
# Where a session writes

Every operation of an image stays in the area reserved for it, the running firmware
and the descriptor table stay as they are.
-/

namespace Qapp.Fw
open ByteMem Traced
open Relation (ReflTransGen)

variable {e : Env} {retry : Bool}

/-! ## Ranges of operations -/

def Op.InFlash (op : Op) (start size : Nat) : Prop :=
  ∃ a n, op.flashRange = some (a, n) ∧ start ≤ a ∧ a + n ≤ start + size

def Op.InRram (op : Op) (start size : Nat) : Prop :=
  ∃ a bs, op = .rramWrite a bs ∧ start ≤ a ∧ a + bs.length ≤ start + size

/-- The area for the data of an image with this id, in a session that began in `s₀`. -/
def InArea (s₀ : St) (l : List Event) (id : Nat) (op : Op) : Prop :=
  if id = fs1ImgId then
    ∃ fs2, Lookup s₀.flash (activeFwd s₀.rram) fs2ImgId fs2 ∧ op.InFlash fs2.imgStart fs2.imgSize
  else if id = sblImgId then
    ∃ i start size, selectSblTrialFde s₀.rram = some (i, start, size) ∧ op.InRram start size
  else ∃ f start size, .selected f start size ∈ l ∧ op.InFlash start size

/-- In its own partition an operation is where the partition is. -/
def Op.InClient (op : Op) (c : Client) : Prop :=
  if c.imgId = sblImgId then op.InRram c.imgStart c.imgSize else op.InFlash c.imgStart c.imgSize

theorem whole_blocks {x : Nat} (aligned : x % blockSize = 0) (lt : x < 2 ^ 32) :
    x / blockSize * blockSize % 2 ^ 32 = x := by
  rw [Nat.div_mul_cancel (Nat.dvd_of_mod_eq_zero aligned), Nat.mod_eq_of_lt lt]

theorem eraseOp_range {c : Client} {offset size : Nat} (fits : EraseFits c offset size)
    (aligned : c.imgStart % blockSize = 0) (inside : offset + size ≤ c.imgSize)
    (small : c.imgStart + c.imgSize < 2 ^ 32) :
    (c.eraseOp offset size).flashRange = some (c.imgStart + offset, size) := by
  have lt : c.imgStart + offset < 2 ^ 32 := by omega
  have start : (c.imgStart + offset) % blockSize = 0 := by
    rw [Nat.add_mod, aligned, fits.start, Nat.zero_mod]
  unfold Client.eraseOp
  rw [Nat.mod_eq_of_lt lt, whole_blocks start lt, whole_blocks fits.size (by omega)]
  rfl

theorem eraseOp_inClient {c : Client} {offset size : Nat} (fits : EraseFits c offset size)
    (aligned : c.imgStart % blockSize = 0) (inside : offset + size ≤ c.imgSize)
    (small : c.imgStart + c.imgSize < 2 ^ 32) : (c.eraseOp offset size).InClient c := by
  unfold Op.InClient
  rw [if_neg fits.id]
  exact ⟨_, _, eraseOp_range fits aligned inside small, by omega, by omega⟩

theorem writeOp_inClient {c : Client} {offset : Nat} {bytes : List UInt8}
    (inside : offset + bytes.length ≤ c.imgSize) (pos : bytes.length ≠ 0)
    (small : c.imgStart + c.imgSize ≤ 2 ^ 32) : (c.writeOp offset bytes).InClient c := by
  unfold Op.InClient Client.writeOp
  have start : (c.imgStart + offset) % 2 ^ 32 = c.imgStart + offset :=
    Nat.mod_eq_of_lt (by omega)
  rw [start]
  by_cases sbl : c.imgId = sblImgId
  · rw [if_pos sbl, if_pos sbl]
    exact ⟨_, _, rfl, by omega, by omega⟩
  · rw [if_neg sbl, if_neg sbl]
    exact ⟨_, _, rfl, by omega, by omega⟩

/-! ## The conditions -/

/-- The partitions of the running FWD that a session changes are in the device behind the
descriptors, and the slot for SBL is apart from the descriptor table. -/
structure Laid (e : Env) (s₀ : St) : Prop where
  parts : ∀ id client, id = fs2ImgId ∨ id = ramdumpImgId →
    Lookup s₀.flash (activeFwd s₀.rram) id client →
    maxFwd * blockSize ≤ client.imgStart ∧ client.imgStart + client.imgSize ≤ e.memSize
  slot : ∀ i start size, selectSblTrialFde s₀.rram = some (i, start, size) →
    start + size ≤ 2 ^ 32 ∧
    (start + size ≤ fdtStart ∨ fdtStart + 32 + fdtMaxEntry * 32 ≤ start)

/-- The conditions on a session: the device, the region and the header. -/
structure Proper (e : Env) (s₀ : St) (l : List Event) : Prop where
  laid : Laid e s₀
  region : ∀ f start size, .selected f start size ∈ l →
    maxFwd * blockSize ≤ start ∧ start + size ≤ e.memSize
  fits : ∀ f start size raw hdrs flags, .selected f start size ∈ l → .images raw hdrs flags ∈ l →
    Fits size raw flags

theorem Proper.before {s₀ : St} {l k : List Event} (h : Proper e s₀ (l ++ k)) : Proper e s₀ l where
  laid := h.laid
  region := fun f start size mem => h.region f start size (List.mem_append_left k mem)
  fits := fun f start size raw hdrs flags sel img =>
    h.fits f start size raw hdrs flags (List.mem_append_left k sel) (List.mem_append_left k img)

theorem Env.memSize_lt (e : Env) : e.memSize < 2 ^ 32 := by
  have := e.blocks_lt
  unfold Env.memSize blockSize
  omega

/-! ## What is tracked -/

/-- The client of an image that was received as `r`. -/
structure Sits (s₀ : St) (c : Cxt) (r : ImageHdr) (client : Client) : Prop where
  id : client.imgId = r.imageId
  aligned : r.imageId ≠ sblImgId → client.imgStart % blockSize = 0
  fs1 : r.imageId = fs1ImgId → ∃ fs2, Lookup s₀.flash (activeFwd s₀.rram) fs2ImgId fs2 ∧
    client.imgStart = fs2.imgStart ∧ client.imgSize = fs2.imgSize ∧
    blockCount r.diskSize * blockSize ≤ client.imgSize
  sbl : r.imageId = sblImgId → client.imgStart = c.trialSblStart ∧ client.imgSize = r.diskSize
  region : r.imageId ≠ fs1ImgId → r.imageId ≠ sblImgId →
    client.imgStart = c.trialMemStart ∧ client.imgSize = blockCount r.diskSize * blockSize

/-- A session that has accepted the header `raw`. -/
structure Loaded (s₀ s : St) (c : Cxt) (l : List Event) (start : Nat) (raw hdrs : List ImageHdr)
    (a : EntrySums) : Prop where
  images : .images raw hdrs c.downloadFlag ∈ l
  imageHdr : s.imageHdr = some hdrs
  checked : checkEntries raw ⟨0, 0, false, false, 0⟩ = (hdrs, some a)
  start : c.trialMemStart = start + space (downloads c.downloadFlag) raw c.imageIndex +
    space (copies c.downloadFlag) raw c.duplicateIndex
  slot : selectSblTrialFde s₀.rram = some (c.trialSblIdx, c.trialSblStart, c.trialSblSize)
  current : c.imageIndex < c.totalImages → ∀ client, s.partition = some client →
    ∃ r, raw[c.imageIndex]? = some r ∧ c.downloadFlag c.imageIndex = true ∧
      c.imageWrtLength = r.imageLength ∧ Sits s₀ c r client
  copying : c.totalImages ≤ c.imageIndex → ∀ client, s.partition = some client →
    ∃ r, raw[c.duplicateIndex]? = some r ∧ c.downloadFlag c.duplicateIndex = false ∧
      isSpecial r.imageId = false ∧ Sits s₀ c r client

/-- What is known of a session in progress. -/
structure TrackAt (s₀ s : St) (c : Cxt) (l : List Event) : Prop where
  fdt : c.fwUpgradeState ≠ .finish → ∀ x, InFdt x → s.rram x = s₀.rram x
  other : c.fwUpgradeState = .eraseFwd ∨ c.fwUpgradeState.erased = true →
    c.trialFwdIdx ≠ activeFwd s₀.rram
  early : c.isFirst = true → c.fwUpgradeState = .eraseFwd ∨ c.fwUpgradeState.erased = true →
    ∃ size, .selected c.trialFwdIdx c.trialMemStart size ∈ l
  loaded : c.isFirst = false → c.fwUpgradeState.erased = true ∧
    ∃ start size raw hdrs a, .selected c.trialFwdIdx start size ∈ l ∧
      Loaded s₀ s c l start raw hdrs a

/-- An operation on the block of the trial FWD, on the selected region or on one of the
two partitions of the running FWD that a session takes over; RRAM is another matter. -/
def Reserved (s₀ : St) (l : List Event) (op : Op) : Prop :=
  (∃ f start size, .selected f start size ∈ l ∧ f ≠ activeFwd s₀.rram ∧
    op.InFlash (fwdAddr f) blockSize) ∨
  (∃ f start size, .selected f start size ∈ l ∧ op.InFlash start size) ∨
  (∃ id client, (id = fs2ImgId ∨ id = ramdumpImgId) ∧
    Lookup s₀.flash (activeFwd s₀.rram) id client ∧ op.InFlash client.imgStart client.imgSize) ∨
  op.flashRange = none

/-- The session keeps to its areas. -/
structure Track (s₀ s : St) (l : List Event) : Prop where
  table : activeFwd s₀.rram < maxFwd → ∀ x, InFwd (activeFwd s₀.rram) x → s.flash x = s₀.flash x
  cxt : ∀ c, s.cxt = some c → TrackAt s₀ s c l
  images : ∀ i client offset op out, .op (.image i client offset) op out ∈ l →
    InArea s₀ l client.imgId op
  ops : ∀ who op out, .op who op out ∈ l → Reserved s₀ l op

theorem InArea.append {s₀ : St} {l : List Event} {id : Nat} {op : Op} (h : InArea s₀ l id op)
    (k : List Event) : InArea s₀ (l ++ k) id op := by
  unfold InArea at *
  by_cases fs1 : id = fs1ImgId
  · rw [if_pos fs1] at h ⊢
    exact h
  · rw [if_neg fs1] at h ⊢
    by_cases sbl : id = sblImgId
    · rw [if_pos sbl] at h ⊢
      exact h
    · rw [if_neg sbl] at h ⊢
      obtain ⟨f, start, size, mem, inside⟩ := h
      exact ⟨f, start, size, List.mem_append_left k mem, inside⟩

theorem Reserved.append {s₀ : St} {l : List Event} {op : Op} (h : Reserved s₀ l op)
    (k : List Event) : Reserved s₀ (l ++ k) op := by
  rcases h with ⟨f, start, size, mem, inside⟩ | ⟨f, start, size, mem, inside⟩ | h
  · exact .inl ⟨f, start, size, List.mem_append_left k mem, inside⟩
  · exact .inr (.inl ⟨f, start, size, List.mem_append_left k mem, inside⟩)
  · exact .inr (.inr h)

/-! ## Partitions are in their areas -/

section Sits
variable {s₀ s : St} {c : Cxt} {l : List Event} {start size : Nat} {raw hdrs : List ImageHdr}
  {a : EntrySums} {r img : ImageHdr} {client : Client} {op : Op} {i : Nat}

theorem Proper.fitting (proper : Proper e s₀ l) {f : Nat} (selected : .selected f start size ∈ l)
    (loaded : Loaded s₀ s c l start raw hdrs a) : Fits size raw c.downloadFlag :=
  proper.fits _ _ _ _ _ _ selected loaded.images

/-- A downloaded image has room in the region. -/
theorem Loaded.room (loaded : Loaded s₀ s c l start raw hdrs a)
    (fits : Fits size raw c.downloadFlag) (hr : raw[c.imageIndex]? = some r)
    (flag : c.downloadFlag c.imageIndex = true) (fs1 : r.imageId ≠ fs1ImgId)
    (sbl : r.imageId ≠ sblImgId) :
    start ≤ c.trialMemStart ∧
      c.trialMemStart + blockCount r.diskSize * blockSize ≤ start + size := by
  have here : sizeAt (downloads c.downloadFlag) raw c.imageIndex =
      blockCount r.diskSize * blockSize := by
    apply sizeAt_pos hr
    simp [downloads, flag, fs1, sbl]
  have next := space_succ (downloads c.downloadFlag) raw c.imageIndex
  have both := space_both c.downloadFlag raw (c.imageIndex + 1) c.duplicateIndex
  have region := fits.region
  have at_ := loaded.start
  omega

/-- So does an image that is copied. -/
theorem Loaded.room_copy (loaded : Loaded s₀ s c l start raw hdrs a)
    (fits : Fits size raw c.downloadFlag) (hr : raw[c.duplicateIndex]? = some r)
    (flag : c.downloadFlag c.duplicateIndex = false) (special : isSpecial r.imageId = false) :
    start ≤ c.trialMemStart ∧
      c.trialMemStart + blockCount r.diskSize * blockSize ≤ start + size := by
  have here : sizeAt (copies c.downloadFlag) raw c.duplicateIndex =
      blockCount r.diskSize * blockSize := by
    apply sizeAt_pos hr
    simp [copies, flag, special]
  have next := space_succ (copies c.downloadFlag) raw c.duplicateIndex
  have both := space_both c.downloadFlag raw c.imageIndex (c.duplicateIndex + 1)
  have region := fits.region
  have at_ := loaded.start
  omega

/-- Where an image is in its area. -/
structure Fitting (s₀ : St) (c : Cxt) (l : List Event) (r : ImageHdr) : Prop where
  slot : selectSblTrialFde s₀.rram = some (c.trialSblIdx, c.trialSblStart, c.trialSblSize)
  sbl : r.imageId = sblImgId → r.diskSize ≤ c.trialSblSize
  region : r.imageId ≠ fs1ImgId → r.imageId ≠ sblImgId → ∃ f start size,
    .selected f start size ∈ l ∧ start ≤ c.trialMemStart ∧
      c.trialMemStart + blockCount r.diskSize * blockSize ≤ start + size

theorem slot_size {m : Mem} {i start size : Nat}
    (h : selectSblTrialFde m = some (i, start, size)) : size = sblMemSize := by
  unfold selectSblTrialFde at h
  split at h
  · obtain ⟨j, -, eq⟩ := Option.map_eq_some_iff.mp h
    cases eq
    rfl
  · cases h

theorem Loaded.fitting (loaded : Loaded s₀ s c l start raw hdrs a)
    (proper : Proper e s₀ l) {f : Nat} (selected : .selected f start size ∈ l)
    (hr : raw[c.imageIndex]? = some r) (flag : c.downloadFlag c.imageIndex = true) :
    Fitting s₀ c l r where
  slot := loaded.slot
  sbl := by
    intro sbl
    rw [slot_size loaded.slot]
    exact (proper.fitting selected loaded).sbl _ r hr flag sbl
  region := by
    intro fs1 sbl
    obtain ⟨lo, hi⟩ := loaded.room (proper.fitting selected loaded) hr flag fs1 sbl
    exact ⟨f, start, size, selected, lo, hi⟩

theorem Loaded.fitting_copy (loaded : Loaded s₀ s c l start raw hdrs a)
    (proper : Proper e s₀ l) {f : Nat} (selected : .selected f start size ∈ l)
    (hr : raw[c.duplicateIndex]? = some r) (flag : c.downloadFlag c.duplicateIndex = false)
    (special : isSpecial r.imageId = false) : Fitting s₀ c l r where
  slot := loaded.slot
  sbl := by
    intro sbl
    rw [sbl] at special
    cases special
  region := by
    intro fs1 sbl
    obtain ⟨lo, hi⟩ := loaded.room_copy (proper.fitting selected loaded) hr flag special
    exact ⟨f, start, size, selected, lo, hi⟩

/-- The partition is at most the area. -/
theorem Sits.inArea (sits : Sits s₀ c r client) (fitting : Fitting s₀ c l r)
    (h : op.InClient client) : InArea s₀ l client.imgId op := by
  unfold Op.InClient at h
  unfold InArea
  by_cases fs1 : r.imageId = fs1ImgId
  · obtain ⟨fs2, found, at_, size, -⟩ := sits.fs1 fs1
    have sbl : client.imgId ≠ sblImgId := by
      rw [sits.id, fs1]
      decide
    rw [if_neg sbl, at_, size] at h
    rw [if_pos (sits.id.trans fs1)]
    exact ⟨fs2, found, h⟩
  · rw [if_neg (sits.id ▸ fs1)]
    by_cases sbl : r.imageId = sblImgId
    · obtain ⟨at_, size⟩ := sits.sbl sbl
      have le := fitting.sbl sbl
      rw [if_pos (sits.id.trans sbl), at_, size] at h
      rw [if_pos (sits.id.trans sbl)]
      obtain ⟨x, bs, eq, lo, hi⟩ := h
      exact ⟨_, _, _, fitting.slot, x, bs, eq, lo, by omega⟩
    · obtain ⟨at_, size⟩ := sits.region fs1 sbl
      obtain ⟨f, start, size', selected, lo, hi⟩ := fitting.region fs1 sbl
      rw [if_neg (sits.id ▸ sbl), at_, size] at h
      rw [if_neg (sits.id ▸ sbl)]
      obtain ⟨x, n, eq, lo', hi'⟩ := h
      exact ⟨f, start, size', selected, x, n, eq, by omega, by omega⟩

/-- The partition does not reach the end of the address space. -/
theorem Sits.small (sits : Sits s₀ c r client) (fitting : Fitting s₀ c l r)
    (proper : Proper e s₀ l) : client.imgStart + client.imgSize ≤ 2 ^ 32 ∧
      (r.imageId ≠ sblImgId → client.imgStart + client.imgSize < 2 ^ 32) := by
  have dev := e.memSize_lt
  by_cases sbl : r.imageId = sblImgId
  · obtain ⟨at_, size⟩ := sits.sbl sbl
    have le := fitting.sbl sbl
    have slot := (proper.laid.slot _ _ _ fitting.slot).1
    exact ⟨by omega, fun ne => absurd sbl ne⟩
  · have lt : client.imgStart + client.imgSize < 2 ^ 32 := by
      by_cases fs1 : r.imageId = fs1ImgId
      · obtain ⟨fs2, found, at_, size, -⟩ := sits.fs1 fs1
        have := (proper.laid.parts _ _ (.inl rfl) found).2
        omega
      · obtain ⟨at_, size⟩ := sits.region fs1 sbl
        obtain ⟨f, start, size', selected, lo, hi⟩ := fitting.region fs1 sbl
        have := (proper.region _ _ _ selected).2
        omega
    exact ⟨by omega, fun _ => lt⟩

/-- The image's data has room in the partition. -/
theorem Sits.holds (sits : Sits s₀ c r client) (le : r.imageLength ≤ r.diskSize) :
    r.imageLength ≤ client.imgSize ∧
      (r.imageId ≠ sblImgId → blockCount r.imageLength * blockSize ≤ client.imgSize) := by
  have whole := le_blockCount r.diskSize
  have mono := Nat.mul_le_mul_right blockSize (blockCount_mono le)
  by_cases fs1 : r.imageId = fs1ImgId
  · obtain ⟨fs2, found, at_, size, room⟩ := sits.fs1 fs1
    exact ⟨by omega, fun _ => by omega⟩
  · by_cases sbl : r.imageId = sblImgId
    · obtain ⟨at_, size⟩ := sits.sbl sbl
      exact ⟨by omega, fun ne => absurd sbl ne⟩
    · obtain ⟨at_, size⟩ := sits.region fs1 sbl
      exact ⟨by omega, fun _ => by omega⟩

theorem ImageOp.inClient {offset : Nat} (h : ImageOp client r.imageLength offset op)
    (sits : Sits s₀ c r client) (fitting : Fitting s₀ c l r) (proper : Proper e s₀ l)
    (le : r.imageLength ≤ r.diskSize) : op.InClient client := by
  obtain ⟨small, below⟩ := sits.small fitting proper
  obtain ⟨holds, blocks⟩ := sits.holds le
  cases h with
  | @erase size fits inside =>
    have sbl : r.imageId ≠ sblImgId := sits.id ▸ fits.id
    have lt := below sbl
    have blocks := blocks sbl
    have fit := fits.inside
    refine eraseOp_inClient fits (sits.aligned sbl) ?_ lt
    rcases Nat.le_total blockSize (blockCount r.imageLength * blockSize) with more | one
    · rw [Nat.max_eq_right more] at inside
      omega
    · rw [Nat.max_eq_left one] at inside
      unfold blockSize at inside
      rw [Nat.mod_eq_of_lt (by omega)] at fit
      exact fit
  | write fits inside => exact writeOp_inClient (by omega) fits.pos small

theorem CopyOp.inClient {size offset : Nat} (h : CopyOp client size offset op)
    (sits : Sits s₀ c r client) (fitting : Fitting s₀ c l r) (proper : Proper e s₀ l)
    (special : isSpecial r.imageId = false) (eq : size = blockCount r.diskSize * blockSize) :
    op.InClient client := by
  simp only [isSpecial, isFs, Bool.or_eq_false_iff, beq_eq_false_iff_ne] at special
  obtain ⟨⟨fs1, -⟩, sbl⟩ := special
  obtain ⟨small, below⟩ := sits.small fitting proper
  have room := (sits.region fs1 sbl).2
  have block : ∀ {offset : Nat}, offset < size → offset % blockSize = 0 →
      offset + blockSize ≤ client.imgSize := by
    intro offset lt aligned
    rw [room, ← eq]
    rw [eq] at lt ⊢
    unfold blockSize at *
    omega
  cases h with
  | erase lt aligned fits =>
    exact eraseOp_inClient fits (sits.aligned sbl) (block lt aligned) (below sbl)
  | write lt aligned len fits =>
    exact writeOp_inClient (len ▸ block lt aligned) fits.pos small

end Sits

/-! ## Every operation is where it belongs -/

section Does
variable {s₀ s : St} {c : Cxt} {l : List Event} {start size : Nat} {raw hdrs : List ImageHdr}
  {a : EntrySums} {r img : ImageHdr} {client : Client} {op : Op} {who : Issuer} {i offset : Nat}

theorem Track.active (track : Track s₀ s l) (hc : s.cxt = some c)
    (before : c.fwUpgradeState ≠ .finish) : activeFwd s.rram = activeFwd s₀.rram :=
  activeFwd_congr ((track.cxt c hc).fdt before)

/-- What the running FWD lists now it has listed from the start. -/
theorem Track.lookup (track : Track s₀ s l) (hc : s.cxt = some c)
    (before : c.fwUpgradeState ≠ .finish) {id : Nat}
    (found : Lookup s.flash (activeFwd s.rram) id client) :
    Lookup s₀.flash (activeFwd s₀.rram) id client := by
  rw [track.active hc before] at found
  exact found.congr (track.table found.1)

/-- The aligned size, as it is without overflow. -/
theorem aligned_diskSize (sbl : r.imageId ≠ sblImgId)
    (whole : blockCount r.diskSize * blockSize < 2 ^ 32) :
    r.aligned.diskSize = blockCount r.diskSize * blockSize := by
  unfold ImageHdr.aligned
  rw [if_neg sbl]
  exact alignDiskSize_eq whole

theorem Fitting.whole (fitting : Fitting s₀ c l r) (proper : Proper e s₀ l)
    (fs1 : r.imageId = fs1ImgId → blockCount r.diskSize * blockSize < 2 ^ 32)
    (sbl : r.imageId ≠ sblImgId) : blockCount r.diskSize * blockSize < 2 ^ 32 := by
  by_cases h : r.imageId = fs1ImgId
  · exact fs1 h
  · obtain ⟨f, start, size, selected, lo, hi⟩ := fitting.region h sbl
    have dev := e.memSize_lt
    have := (proper.region _ _ _ selected).2
    omega

/-- An image that is placed sits in its partition. -/
theorem Placed.sits (placed : Placed e s c r.aligned client)
    (aligned : Placeable client.imgId client.imgStart client.imgSize) (track : Track s₀ s l)
    (hc : s.cxt = some c) (before : c.fwUpgradeState ≠ .finish)
    (whole : r.imageId ≠ sblImgId → blockCount r.diskSize * blockSize < 2 ^ 32) :
    Sits s₀ c r client := by
  have id : client.imgId = r.imageId := placed.id.trans (aligned_imageId r)
  have disk : r.imageId ≠ sblImgId → r.aligned.diskSize = blockCount r.diskSize * blockSize :=
    fun sbl => aligned_diskSize sbl (whole sbl)
  refine ⟨id, fun sbl => (aligned (id ▸ sbl)).1, fun fs1 => ?_, fun sbl => ?_, fun fs1 sbl => ?_⟩
  · have sbl : r.imageId ≠ sblImgId := by
      rw [fs1]
      decide
    obtain ⟨fs2, found, le, at_, size⟩ := placed.fs1 ((aligned_imageId r).trans fs1)
    rw [disk sbl] at le
    exact ⟨fs2, track.lookup hc before found, at_, size, by omega⟩
  · obtain ⟨at_, size⟩ := placed.sbl ((aligned_imageId r).trans sbl)
    refine ⟨at_, size.trans ?_⟩
    unfold ImageHdr.aligned
    rw [if_pos sbl]
  · obtain ⟨at_, size⟩ := placed.mem (by rwa [aligned_imageId]) (by rwa [aligned_imageId])
    exact ⟨at_, size.trans (disk sbl)⟩

/-- An operation for an image is in its partition, and the partition is where it belongs. -/
theorem Does.sits (does : Does e s c (.image i client offset) op) (track : Track s₀ s l)
    (hc : s.cxt = some c) (proper : Proper e s₀ l) (late : Late s) :
    ∃ r, Sits s₀ c r client ∧ Fitting s₀ c l r ∧ op.InClient client := by
  have at_ := track.cxt c hc
  generalize hw : Issuer.image i client offset = who at does
  cases does with
  | @image img client' offset' op current place access =>
    cases hw
    obtain ⟨-, start, size, raw, hdrs, a, selected, loaded⟩ := at_.loaded current.first
    obtain ⟨hdrs', imageHdr, hdr⟩ := current.hdr
    cases loaded.imageHdr.symm.trans imageHdr
    obtain ⟨r, hr, rfl, le⟩ := checkEntries_get loaded.checked hdr
    have fitting := loaded.fitting proper selected hr current.flag
    have before : c.fwUpgradeState ≠ .finish := by
      rw [current.state]
      rintro ⟨⟩
    rcases place with part | ⟨length, placed, aligned⟩
    · obtain ⟨r', hr', -, length, sits⟩ := loaded.current current.lt client part
      cases hr.symm.trans hr'
      rw [length] at access
      exact ⟨r, sits, fitting, access.inClient sits fitting proper le⟩
    · have fits := proper.fitting selected loaded
      have sits := placed.sits aligned track hc before fun sbl =>
        fitting.whole proper (fits.fs1 r (List.mem_of_getElem? hr)) sbl
      rw [length, aligned_imageLength] at access
      exact ⟨r, sits, fitting, access.inClient sits fitting proper le⟩
  | @copy hdrs img client' offset' op state part imageHdr hdr access =>
    cases hw
    obtain ⟨first, done⟩ := late c hc (by rw [state]; rfl)
    obtain ⟨-, start, size, raw, hdrs, a, selected, loaded⟩ := at_.loaded first
    cases loaded.imageHdr.symm.trans imageHdr
    obtain ⟨r, hr, rfl, le⟩ := checkEntries_get loaded.checked hdr
    obtain ⟨r', hr', flag, special, sits⟩ := loaded.copying done client part
    cases hr.symm.trans hr'
    have fitting := loaded.fitting_copy proper selected hr flag special
    have sbl : r.imageId ≠ sblImgId := by
      rintro sbl
      rw [sbl] at special
      cases special
    have fs1 : r.imageId ≠ fs1ImgId := by
      rintro fs1
      rw [fs1] at special
      cases special
    have whole := fitting.whole proper (fun h => absurd h fs1) sbl
    exact ⟨r, sits, fitting, access.inClient sits fitting proper special
      (aligned_diskSize sbl whole)⟩
  | _ => cases hw

theorem Does.inArea (does : Does e s c (.image i client offset) op) (track : Track s₀ s l)
    (hc : s.cxt = some c) (proper : Proper e s₀ l) (late : Late s) :
    InArea s₀ l client.imgId op := by
  obtain ⟨r, sits, fitting, inside⟩ := does.sits track hc proper late
  exact sits.inArea fitting inside

/-- The flash an operation changes is between these bounds. -/
def Op.Within (op : Op) (lo hi : Nat) : Prop :=
  ∀ a n, op.flashRange = some (a, n) → lo ≤ a ∧ a + n ≤ hi

theorem Op.InFlash.within {lo hi : Nat} (h : op.InFlash start size) (le : lo ≤ start)
    (ge : start + size ≤ hi) : op.Within lo hi := by
  obtain ⟨a, n, eq, first, last⟩ := h
  intro b k hb
  cases eq.symm.trans hb
  exact ⟨by omega, by omega⟩

/-- What is done for an image is behind the tables. -/
theorem InArea.within {id : Nat} (inArea : InArea s₀ l id op) (proper : Proper e s₀ l) :
    op.Within (maxFwd * blockSize) e.memSize := by
  unfold InArea at inArea
  split at inArea
  · obtain ⟨fs2, found, inside⟩ := inArea
    obtain ⟨lo, hi⟩ := proper.laid.parts _ _ (.inl rfl) found
    exact inside.within lo hi
  · split at inArea
    · obtain ⟨_, _, _, _, _, _, rfl, _⟩ := inArea
      rintro a n ⟨⟩
    · obtain ⟨f, start, size, selected, inside⟩ := inArea
      obtain ⟨lo, hi⟩ := proper.region _ _ _ selected
      exact inside.within lo hi

/-- What is reserved is in the block of a FWD that does not run, or behind the descriptors. -/
theorem Reserved.within (h : Reserved s₀ l op) (proper : Proper e s₀ l) :
    (∃ f, f ≠ activeFwd s₀.rram ∧ op.Within (fwdAddr f) (fwdAddr f + blockSize)) ∨
      op.Within (maxFwd * blockSize) e.memSize := by
  rcases h with ⟨f, start, size, selected, other, inside⟩ | ⟨f, start, size, selected, inside⟩ |
    ⟨id, client, which, found, inside⟩ | none
  · exact .inl ⟨f, other, inside.within (Nat.le_refl _) (Nat.le_refl _)⟩
  · obtain ⟨lo, hi⟩ := proper.region _ _ _ selected
    exact .inr (inside.within lo hi)
  · obtain ⟨lo, hi⟩ := proper.laid.parts _ _ which found
    exact .inr (inside.within lo hi)
  · right
    intro a n range
    cases none.symm.trans range

/-- The operation misses the client's partition. -/
def Op.Misses (op : Op) (client : Client) : Prop :=
  ∀ a n, op.flashRange = some (a, n) →
    a + n ≤ client.imgStart ∨ client.imgStart + client.imgSize ≤ a

theorem Op.InFlash.misses (h : op.InFlash start size)
    (apart : start + size ≤ client.imgStart ∨ client.imgStart + client.imgSize ≤ start) :
    op.Misses client := by
  obtain ⟨a, n, range, lo, hi⟩ := h
  intro b m range'
  cases range.symm.trans range'
  omega

theorem Op.misses_of_rram (none : op.flashRange = none) : op.Misses client := by
  intro a n range
  cases none.symm.trans range

/-- A partition in flash of the running image set, other than the FS2 that the data of FS1 is
for. -/
def RunningPart (s₀ : St) (p : Client) : Prop :=
  (∃ i < maxImages, p = (fwdEntry s₀.flash (activeFwd s₀.rram) i).client (activeFwd s₀.rram) i) ∧
    p.imgId ≠ imageUnused ∧ p.imgId ≠ sblImgId ∧
    ¬Lookup s₀.flash (activeFwd s₀.rram) fs2ImgId p

/-- The running image set is apart from the selected region and from the two partitions that a
session takes over. -/
structure Spared (s₀ : St) (l : List Event) : Prop where
  region : ∀ f start size p, .selected f start size ∈ l → RunningPart s₀ p →
    start + size ≤ p.imgStart ∨ p.imgStart + p.imgSize ≤ start
  taken : ∀ id q p, id = fs2ImgId ∨ id = ramdumpImgId →
    Lookup s₀.flash (activeFwd s₀.rram) id q → RunningPart s₀ p → p ≠ q →
    q.imgStart + q.imgSize ≤ p.imgStart ∨ p.imgStart + p.imgSize ≤ q.imgStart

theorem InArea.misses {id : Nat} {p : Client} (inArea : InArea s₀ l id op) (spared : Spared s₀ l)
    (running : RunningPart s₀ p) : op.Misses p := by
  unfold InArea at inArea
  split at inArea
  · obtain ⟨fs2, found, inside⟩ := inArea
    have other : p ≠ fs2 := by
      rintro rfl
      exact running.2.2.2 found
    exact inside.misses (spared.taken _ fs2 p (.inl rfl) found running other)
  · split at inArea
    · obtain ⟨_, _, _, _, _, _, rfl, _⟩ := inArea
      exact Op.misses_of_rram rfl
    · obtain ⟨f, start, size, selected, inside⟩ := inArea
      exact inside.misses (spared.region f start size p selected running)

/-- Of the running image set only the ramdump partition is reserved besides FS2. -/
theorem Reserved.contained (h : Reserved s₀ l op) (proper : Proper e s₀ l)
    (spared : Spared s₀ l) :
    (∃ f, f ≠ activeFwd s₀.rram ∧ op.Within (fwdAddr f) (fwdAddr f + blockSize)) ∨
      op.Within (maxFwd * blockSize) e.memSize ∧
        ∀ p, RunningPart s₀ p → ¬Lookup s₀.flash (activeFwd s₀.rram) ramdumpImgId p →
          op.Misses p := by
  rcases h with ⟨f, start, size, selected, other, inside⟩ | ⟨f, start, size, selected, inside⟩ |
    ⟨id, q, which, found, inside⟩ | none
  · exact .inl ⟨f, other, inside.within (Nat.le_refl _) (Nat.le_refl _)⟩
  · obtain ⟨lo, hi⟩ := proper.region _ _ _ selected
    refine .inr ⟨inside.within lo hi, fun p running _ => ?_⟩
    exact inside.misses (spared.region f start size p selected running)
  · obtain ⟨lo, hi⟩ := proper.laid.parts _ _ which found
    refine .inr ⟨inside.within lo hi, fun p running ramdump => ?_⟩
    have other : p ≠ q := by
      rintro rfl
      rcases which with rfl | rfl
      · exact running.2.2.2 found
      · exact ramdump found
    exact inside.misses (spared.taken id q p which found running other)
  · refine .inr ⟨fun a n range => ?_, fun p _ _ => Op.misses_of_rram none⟩
    cases none.symm.trans range

/-- A session that has its trial FWD has selected it. -/
theorem TrackAt.selected (at_ : TrackAt s₀ s c l)
    (aimed : c.fwUpgradeState = .eraseFwd ∨ c.fwUpgradeState.erased = true) :
    c.trialFwdIdx ≠ activeFwd s₀.rram ∧ ∃ start size, .selected c.trialFwdIdx start size ∈ l := by
  refine ⟨at_.other aimed, ?_⟩
  cases first : c.isFirst with
  | true => exact ⟨_, at_.early first aimed⟩
  | false =>
    obtain ⟨-, start, size, raw, hdrs, a, selected, -⟩ := at_.loaded first
    exact ⟨start, size, selected⟩

theorem InArea.reserved {id : Nat} (h : InArea s₀ l id op) : Reserved s₀ l op := by
  unfold InArea at h
  split at h
  · obtain ⟨fs2, found, inside⟩ := h
    exact .inr (.inr (.inl ⟨fs2ImgId, fs2, .inl rfl, found, inside⟩))
  · split at h
    · obtain ⟨_, _, _, _, _, _, rfl, _⟩ := h
      exact .inr (.inr (.inr rfl))
    · exact .inr (.inl h)

theorem PartOp.inFlash {id : Nat} (h : PartOp client offset op) (ne : id ≠ sblImgId)
    (found : Lookup s₀.flash (activeFwd s₀.rram) id client) (dev : e.memSize < 2 ^ 32)
    (inside : client.imgStart + client.imgSize ≤ e.memSize) :
    op.InFlash client.imgStart client.imgSize := by
  have aligned := (found.blocks ne).1
  have sbl : client.imgId ≠ sblImgId := found.imgId ▸ ne
  have inClient : op.InClient client := by
    cases h with
    | all fits => exact eraseOp_inClient fits aligned (by omega) (by omega)
    | copy room access =>
      cases access with
      | erase lt start fits => exact eraseOp_inClient fits aligned room (by omega)
      | write lt start len fits => exact writeOp_inClient (len ▸ room) fits.pos (by omega)
  unfold Op.InClient at inClient
  rwa [if_neg sbl] at inClient

/-- An access to a partition stays in it, and the running FWD listed it from the start. -/
theorem PartOp.listed {id : Nat} (h : PartOp client offset op) (track : Track s₀ s l)
    (hc : s.cxt = some c) (proper : Proper e s₀ l) (state : c.fwUpgradeState.bulk = true)
    (which : id = fs2ImgId ∨ id = ramdumpImgId)
    (found : Lookup s.flash (activeFwd s.rram) id client) :
    Lookup s₀.flash (activeFwd s₀.rram) id client ∧
      op.InFlash client.imgStart client.imgSize := by
  have before : c.fwUpgradeState ≠ .finish := by
    intro finish
    rw [finish] at state
    cases state
  have found := track.lookup hc before found
  refine ⟨found, h.inFlash ?_ found e.memSize_lt (proper.laid.parts _ _ which found).2⟩
  rcases which with rfl | rfl <;> decide

theorem length_entryBytes (id version start size : Nat) :
    (entryBytes id version start size).length = 16 := by
  simp [entryBytes]

/-- Flash is changed where it is reserved for that. -/
theorem Does.reserved (does : Does e s c who op) (track : Track s₀ s l) (hc : s.cxt = some c)
    (proper : Proper e s₀ l) (late : Late s) : Reserved s₀ l op := by
  have block (aimed : c.fwUpgradeState = .eraseFwd ∨ c.fwUpgradeState.erased = true)
      (inside : op.InFlash (fwdAddr c.trialFwdIdx) blockSize) : Reserved s₀ l op := by
    obtain ⟨other, start, size, selected⟩ := (track.cxt c hc).selected aimed
    exact .inl ⟨_, start, size, selected, other, inside⟩
  have field (info : FwdInfo) (value : Nat) : (Op.write (fwdAddr c.trialFwdIdx + info.offset)
      (leBytes info.size value)).InFlash (fwdAddr c.trialFwdIdx) blockSize := by
    have := info.in_block
    refine ⟨_, _, rfl, by omega, ?_⟩
    rw [length_leBytes]
    unfold blockSize
    omega
  cases does with
  | erase state lt => exact block (.inl state) ⟨_, _, rfl, Nat.le_refl _, Nat.le_refl _⟩
  | field state lt header => exact block (.inr state) (field _ _)
  | entry state fwd lt slot =>
    refine block (.inr state) ⟨_, _, rfl, ?_, ?_⟩
    · rw [← fwd]
      unfold entryAddr
      omega
    · rw [length_entryBytes, ← fwd]
      unfold entryAddr
      unfold maxImages at slot
      unfold blockSize
      omega
  | part state which found h =>
    obtain ⟨found, inside⟩ := h.listed track hc proper state which found
    exact .inr (.inr (.inl ⟨_, _, which, found, inside⟩))
  | image current place access =>
    exact ((Does.image current place access).inArea track hc proper late).reserved
  | copy state part imageHdr hdr access =>
    exact ((Does.copy state part imageHdr hdr access).inArea track hc proper late).reserved
  | status state lt => exact block (.inr (by rw [state]; rfl)) (field .status statusValid)
  | fde state => exact .inr (.inr (.inr rfl))

/-- The descriptor table is changed at the end only. -/
theorem Does.rram (does : Does e s c who op) (track : Track s₀ s l) (hc : s.cxt = some c)
    (proper : Proper e s₀ l) (late : Late s) (before : c.fwUpgradeState ≠ .finish) {addr : Nat}
    {bytes : List UInt8} (eq : op = .rramWrite addr bytes) {x : Nat} (fdt : InFdt x) :
    x < addr ∨ addr + bytes.length ≤ x := by
  have apart : ∀ {i : Nat} {client : Client} {offset : Nat},
      Does e s c (.image i client offset) op → x < addr ∨ addr + bytes.length ≤ x := by
    intro i client offset does
    have inArea := does.inArea track hc proper late
    unfold InArea at inArea
    split at inArea
    · obtain ⟨fs2, -, a, n, range, -⟩ := inArea
      rw [eq] at range
      cases range
    · split at inArea
      · obtain ⟨j, start, size, slot, a, bs, write, lo, hi⟩ := inArea
        cases eq.symm.trans write
        unfold InFdt at fdt
        rcases (proper.laid.slot _ _ _ slot).2 with h | h <;> omega
      · obtain ⟨f, start, size, -, a, n, range, -⟩ := inArea
        rw [eq] at range
        cases range
  cases does with
  | erase | field | entry | status => cases eq
  | part state which found h =>
    have id := found.imgId
    cases h with
    | all fits => cases eq
    | copy room access =>
      cases access with
      | erase lt start fits => cases eq
      | write lt start len fits =>
        unfold Client.writeOp at eq
        rw [if_neg] at eq
        · cases eq
        · rw [id]
          rcases which with rfl | rfl <;> decide
  | image current place access => exact apart (.image current place access)
  | copy state part imageHdr hdr access => exact apart (.copy state part imageHdr hdr access)
  | fde state => exact absurd state before

end Does

end Qapp.Fw
