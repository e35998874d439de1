import Qapp.Fw.Filling

/-!
# Images that have been verified

What an image was verified over is in its partition, and stays there until the session ends.
-/

namespace Qapp.Fw
open ByteMem Traced

variable {e : Env} {s₀ s t u : St} {c d : Cxt} {l k : List Event} {i blocks : Nat}
  {client : Client} {data bytes : List UInt8} {op : Op} {out : Outcome} {who : Issuer}

/-! ## The session -/

/-- Image `i` was verified as `bytes`, of which its data is in its partition. -/
structure Filed (s₀ s : St) (l : List Event) (i : Nat) (r : ImageHdr) (bytes : List UInt8)
    (client : Client) : Prop where
  id : client.imgId = r.imageId
  clear : Clear s₀ client
  filled : ∃ data pad, bytes = data ++ pad ∧ (∀ b ∈ pad, b = 0xFF) ∧ data.length = r.imageLength ∧
    Filling s l i client data (erasedBlocks r.imageLength r.imageLength)

/-- The current image as far as it has been received. -/
def Intake (s : St) (c : Cxt) (l : List Event) (client : Client) : Prop :=
  ∃ data, Filling s l c.imageIndex client data (erasedBlocks c.imageWrtCount c.imageWrtLength) ∧
    data.length = c.imageWrtCount ∧ c.imageWrtCount ≤ c.imageWrtLength ∧ c.digest.bytes = data

/-- The images from the current one on. -/
structure FillAt (s : St) (c : Cxt) (l : List Event) (raw : List ImageHdr) : Prop where
  empty : ∀ j r, raw[j]? = some r → downloads c.downloadFlag j r.imageId = true →
    c.imageIndex ≤ j → (j = c.imageIndex → c.imageWrtLength = 0 ∨ c.imageWrtCount = 0) →
    stored j l = some []
  now : 0 < c.imageWrtLength → ∀ client r, s.partition = some client →
    raw[c.imageIndex]? = some r → downloads c.downloadFlag c.imageIndex r.imageId = true →
    Intake s c l client

/-- Before the header nothing is said of images. -/
structure Event.Early (w : Event) : Prop where
  images : ∀ raw hdrs flags, w ≠ .images raw hdrs flags
  hashed : ∀ i bytes, w ≠ .hashed (some i) bytes true
  chunk : ∀ i, w.chunk i = none

/-- What has been verified stays, and the current image is filled in order. -/
structure FillTrack (s₀ s : St) (l : List Event) : Prop where
  early : ∀ c, s.cxt = some c → c.isFirst = true → ∀ w ∈ l, w.Early
  one : ∀ raw hdrs flags raw' hdrs' flags', .images raw hdrs flags ∈ l →
    .images raw' hdrs' flags' ∈ l → raw' = raw ∧ flags' = flags
  past : ∀ raw hdrs flags i r bytes, .images raw hdrs flags ∈ l → raw[i]? = some r →
    downloads flags i r.imageId = true → .hashed (some i) bytes true ∈ l →
    ∃ client, Filed s₀ s l i r bytes client ∧
      ∀ c, s.cxt = some c → i < c.imageIndex ∧ client.imgStart + client.imgSize ≤ c.trialMemStart
  cxt : ∀ c raw hdrs, s.cxt = some c → c.imageIndex < c.totalImages →
    .images raw hdrs c.downloadFlag ∈ l → FillAt s c l raw

theorem Event.Others.of_quiet {w : Event} (op : ∀ who op out, w ≠ .op who op out)
    (created : ∀ c, w ≠ .created i c) : w.Others i := by
  refine ⟨?_, ?_, created⟩
  · cases w with
    | op who o out => exact absurd rfl (op who o out)
    | _ => rfl
  · cases w with
    | op who o out => exact absurd rfl (op who o out)
    | _ => rfl

theorem downloads_flag {flags : Nat → Bool} {id : Nat} (h : downloads flags i id = true) :
    flags i = true ∧ id ≠ fs1ImgId ∧ id ≠ sblImgId := by
  unfold downloads at h
  simp only [Bool.and_eq_true, bne_iff_ne] at h
  exact ⟨h.1.1, h.1.2, h.2⟩

/-- What a move adds is about other images than those that have been verified. -/
theorem Move.others {h : List Event} (late : Late s) (track : Track s₀ s h)
    (effects : Effects e s k t) (marks : ∀ w ∈ k, Marks s t k w)
    (past : ∀ c, s.cxt = some c → c.isFirst = false ∧ i < c.imageIndex ∧ c.downloadFlag i = true) :
    ∀ w ∈ k, w.Others i := by
  intro w mem
  cases w with
  | op who op out =>
    apply Event.Others.of_op
    rintro p offset rfl
    obtain ⟨c, hc, does⟩ := effects.does _ _ _ mem
    obtain ⟨first, lt, flag⟩ := past c hc
    obtain ⟨rfl, -⟩ | ⟨rfl, state, part⟩ := does.index
    · exact Nat.lt_irrefl _ lt
    · obtain ⟨-, start, size, raw, hdrs, a, selected, loaded⟩ := (track.cxt c hc).loaded first
      obtain ⟨r, -, no, -⟩ := loaded.copying (late c hc (by rw [state]; rfl)).2 p part
      cases flag.symm.trans no
  | created j p =>
    apply Event.Others.of_quiet (by rintro _ _ _ ⟨⟩)
    rintro q ⟨rfl, rfl⟩
    cases marks _ mem with
    | @created c _ hc i which =>
      obtain ⟨-, lt, flag⟩ := past c hc
      obtain rfl | no := which
      · exact Nat.lt_irrefl _ lt
      · cases flag.symm.trans no
    | other _ created _ => exact created _ _ rfl
  | _ => exact Event.Others.of_quiet (by rintro _ _ _ ⟨⟩) (by rintro _ ⟨⟩)

/-- What has been verified stays where it is. -/
theorem Filed.step {h : List Event} {r : ImageHdr} (filed : Filed s₀ s h i r bytes client)
    (proper : Proper e s₀ h) (late : Late s) (track : Track s₀ s h) (effects : Effects e s k t)
    (marks : ∀ w ∈ k, Marks s t k w)
    (past : ∀ c, s.cxt = some c → c.isFirst = false ∧ i < c.imageIndex ∧ c.downloadFlag i = true ∧
      client.imgStart + client.imgSize ≤ c.trialMemStart) :
    Filed s₀ t (h ++ k) i r bytes client := by
  obtain ⟨data, pad, eq, ff, length, filling⟩ := filed.filled
  refine ⟨filed.id, filed.clear, data, pad, eq, ff, length, filling.others ?_ effects.devices ?_⟩
  · refine Move.others late track effects marks fun c hc => ?_
    obtain ⟨first, lt, flag, -⟩ := past c hc
    exact ⟨first, lt, flag⟩
  · intro who op out mem
    obtain ⟨c, hc, does⟩ := effects.does _ _ _ mem
    obtain ⟨-, -, -, behind⟩ := past c hc
    by_cases image : ∃ j p offset, who = .image j p offset
    · obtain ⟨j, p, offset, rfl⟩ := image
      exact does.misses_behind track hc proper late filed.clear behind
    · exact does.misses track hc proper filed.clear fun j p offset eq => image ⟨j, p, offset, eq⟩

section FillAt
variable {h : List Event} {raw hdrs : List ImageHdr} {r : ImageHdr}

/-- Neither the current image nor those behind it are touched. -/
theorem FillAt.keep (at_ : FillAt s c h raw) (flags : d.downloadFlag = c.downloadFlag)
    (index : d.imageIndex = c.imageIndex) (length : d.imageWrtLength = c.imageWrtLength)
    (count : d.imageWrtCount = c.imageWrtCount)
    (others : ∀ j r, raw[j]? = some r → downloads c.downloadFlag j r.imageId = true →
      c.imageIndex ≤ j → ∀ w ∈ k, w.Others j)
    (part : ∀ client r, t.partition = some client → raw[c.imageIndex]? = some r →
      downloads c.downloadFlag c.imageIndex r.imageId = true →
      s.partition = some client ∧ d.digest = c.digest ∧ SameDevices t (replay s k) ∧
        ∀ who op out, .op who op out ∈ k → op.Misses client) : FillAt t d (h ++ k) raw where
  empty j r hr down le fresh := by
    rw [flags] at down
    rw [index] at le
    rw [index, length, count] at fresh
    rw [stored_append_none fun w mem => (others j r hr down le w mem).chunk]
    exact at_.empty j r hr down le fresh
  now some client r hp hr down := by
    rw [length] at some
    rw [index] at hr
    rw [index, flags] at down
    obtain ⟨held, digest, devices, misses⟩ := part client r hp hr down
    obtain ⟨data, filling, len, le, bytes⟩ := at_.now some client r held hr down
    have others := others _ r hr down (Nat.le_refl _)
    unfold Intake
    rw [index, length, count, digest]
    exact ⟨data, filling.others others devices misses, len, le, bytes⟩

/-- Nothing is done. -/
theorem FillAt.rest (at_ : FillAt s c h raw) (flags : d.downloadFlag = c.downloadFlag)
    (index : d.imageIndex = c.imageIndex) (length : d.imageWrtLength = c.imageWrtLength)
    (count : d.imageWrtCount = c.imageWrtCount) (flash : t.flash = s.flash) (rram : t.rram = s.rram)
    (silent : ∀ who op out, .op who op out ∉ k) (created : ∀ j p, .created j p ∉ k)
    (part : t.partition = none ∨ t.partition = s.partition ∧ d.digest = c.digest) :
    FillAt t d (h ++ k) raw := by
  apply at_.keep flags index length count
  · intro j r _ _ _ w mem
    exact .of_quiet (fun who op out eq => silent who op out (eq ▸ mem))
      fun p eq => created j p (eq ▸ mem)
  · intro client r hp _ _
    obtain none | ⟨same, digest⟩ := part
    · cases none.symm.trans hp
    · refine ⟨same.symm.trans hp, digest, ?_, fun who op out mem => absurd mem (silent _ _ _)⟩
      rw [replay_silent s silent]
      exact ⟨flash, rram⟩

theorem FillAt.still (at_ : FillAt s c h raw) (flags : d.downloadFlag = c.downloadFlag)
    (index : d.imageIndex = c.imageIndex) (length : d.imageWrtLength = c.imageWrtLength)
    (count : d.imageWrtCount = c.imageWrtCount) (flash : t.flash = s.flash) (rram : t.rram = s.rram)
    (part : t.partition = none ∨ t.partition = s.partition ∧ d.digest = c.digest) :
    FillAt t d h raw := by
  have rest := at_.rest (k := []) flags index length count flash rram
    (fun _ _ _ => List.not_mem_nil) (fun _ _ => List.not_mem_nil) part
  rwa [List.append_nil] at rest

/-- The session goes on to the next image. -/
theorem FillAt.next (at_ : FillAt s c h raw) (flags : d.downloadFlag = c.downloadFlag)
    (index : c.imageIndex < d.imageIndex) (loose : t.partition = none)
    (others : ∀ j r, raw[j]? = some r → downloads c.downloadFlag j r.imageId = true →
      c.imageIndex < j → ∀ w ∈ k, w.chunk j = none) : FillAt t d (h ++ k) raw where
  empty j r hr down le _ := by
    rw [flags] at down
    have lt : c.imageIndex < j := Nat.lt_of_lt_of_le index le
    rw [stored_append_none (others j r hr down lt)]
    exact at_.empty j r hr down (Nat.le_of_lt lt) fun eq => absurd eq (Nat.ne_of_gt lt)
  now _ client r hp := by cases loose.symm.trans hp

/-- The header has been accepted. -/
theorem FillAt.start (early : ∀ w ∈ h, w.Early) (loose : t.partition = none)
    (chunk : ∀ w ∈ k, ∀ j, w.chunk j = none) : FillAt t d (h ++ k) raw where
  empty j r _ _ _ _ := by
    have none : (h ++ k).filterMap (Event.chunk j) = [] := by
      refine List.filterMap_eq_nil_iff.mpr fun w mem => ?_
      obtain mem | mem := List.mem_append.mp mem
      · exact (early w mem).chunk j
      · exact chunk w mem j
    rw [stored, none]
    rfl
  now _ client r hp := by cases loose.symm.trans hp

end FillAt

/-- A partition in the region that has room for the image. -/
theorem Sits.regular {r : ImageHdr} (sits : Sits s₀ c r client) (fitting : Fitting s₀ c l r)
    (proper : Proper e s₀ l) (sbl : r.imageId ≠ sblImgId) (pos : 0 < r.imageLength)
    (le : r.imageLength ≤ r.diskSize) :
    Regular client ∧ max 1 (blockCount r.imageLength) * blockSize ≤ client.imgSize := by
  refine ⟨⟨?_, sits.aligned sbl, (sits.small fitting proper).2 sbl⟩, ?_⟩
  · rw [sits.id]
    exact sbl
  · have some : max 1 (blockCount r.imageLength) = blockCount r.imageLength := by
      unfold blockCount blockSize
      omega
    rw [some]
    exact (sits.holds le).2 sbl

/-- A partition in the region is apart from what others do. -/
theorem Sits.clear {r : ImageHdr} (sits : Sits s₀ c r client) (fitting : Fitting s₀ c l r)
    (proper : Proper e s₀ l) (separate : Separate s₀ l) (fs1 : r.imageId ≠ fs1ImgId)
    (sbl : r.imageId ≠ sblImgId) : Clear s₀ client := by
  obtain ⟨start, size⟩ := sits.region fs1 sbl
  obtain ⟨f, first, length, selected, lo, hi⟩ := fitting.region fs1 sbl
  refine ⟨?_, fun id p which found => ?_⟩
  · have := (proper.region _ _ _ selected).1
    omega
  · have := separate _ _ _ selected id p which found
    omega

/-! ## Move by move -/

section Move
variable {h h' : List Event} {raw hdrs : List ImageHdr} {r : ImageHdr} {a : EntrySums}
  {f start size : Nat}

/-- The current partition is in the region, where there is room for the image. -/
theorem Loaded.holding (loaded : Loaded s₀ s c l start raw hdrs a) (proper : Proper e s₀ l)
    (separate : Separate s₀ l) (selected : .selected f start size ∈ l)
    (lt : c.imageIndex < c.totalImages) (hp : s.partition = some client)
    (hr : raw[c.imageIndex]? = some r)
    (down : downloads c.downloadFlag c.imageIndex r.imageId = true) :
    Sits s₀ c r client ∧ Clear s₀ client ∧ c.imageWrtLength = r.imageLength ∧
      (0 < r.imageLength → Regular client ∧
        max 1 (blockCount r.imageLength) * blockSize ≤ client.imgSize) := by
  obtain ⟨flag, fs1, sbl⟩ := downloads_flag down
  obtain ⟨r', hr', -, length, sits⟩ := loaded.current lt client hp
  cases hr.symm.trans hr'
  have fitting := loaded.fitting proper selected hr flag
  refine ⟨sits, sits.clear fitting proper separate fs1 sbl, length, fun pos => ?_⟩
  have sent : ∃ img, hdrs[c.imageIndex]? = some img := by
    obtain ⟨img, hdr, -⟩ := loaded.sent hr
    exact ⟨img, hdr⟩
  obtain ⟨img, hdr⟩ := sent
  obtain ⟨r', hr', -, le⟩ := checkEntries_get loaded.checked hdr
  cases hr.symm.trans hr'
  exact sits.regular fitting proper sbl pos le

/-- What is done for other partitions. -/
theorem FillAt.elsewhere {P : Issuer → Op → Outcome → Prop} (at_ : FillAt s c h raw)
    (track : Track s₀ s h) (hc : s.cxt = some c) (proper : Proper e s₀ h)
    (clear : ∀ client r, s.partition = some client → raw[c.imageIndex]? = some r →
      downloads c.downloadFlag c.imageIndex r.imageId = true → Clear s₀ client)
    (touches : Touches e P s k t) (does : ∀ who op out, P who op out → Does e s c who op)
    (other : ∀ who op out, P who op out → ∀ i p offset, who ≠ .image i p offset) :
    FillAt t c (h ++ k) raw := by
  refine at_.keep rfl rfl rfl rfl (fun j r _ _ _ w mem => ?_) fun client r hp hr down => ?_
  · obtain ⟨n, rfl⟩ | ⟨who, op, out, rfl, allowed⟩ := touches.events w mem
    · exact .of_quiet (by rintro _ _ _ ⟨⟩) (by rintro _ ⟨⟩)
    · exact .of_op fun p offset => other _ _ _ allowed _ _ _
  · rw [touches.partition] at hp
    refine ⟨hp, rfl, touches.devices, fun who op out mem => ?_⟩
    obtain ⟨n, ⟨⟩⟩ | ⟨_, _, _, ⟨⟩, allowed⟩ := touches.events _ mem
    exact (does _ _ _ allowed).misses track hc proper (clear client r hp hr down)
      (other _ _ _ allowed)

theorem FillAt.skip (at_ : FillAt s c h raw) (flags : d.downloadFlag = c.downloadFlag)
    (index : c.imageIndex < d.imageIndex) (loose : t.partition = none) : FillAt t d h raw := by
  have next := at_.next (k := []) flags index loose fun _ _ _ _ _ _ mem =>
    absurd mem List.not_mem_nil
  rwa [List.append_nil] at next

/-- What is done for the current image. -/
theorem FillAt.grow (at_ : FillAt s c h raw) (index : d.imageIndex = c.imageIndex)
    (flags : d.downloadFlag = c.downloadFlag) (length : d.imageWrtLength = c.imageWrtLength)
    (count : c.imageWrtCount ≤ d.imageWrtCount)
    (others : ∀ j, j ≠ c.imageIndex → ∀ w ∈ k, w.chunk j = none)
    (fresh : ∀ r, raw[c.imageIndex]? = some r →
      downloads c.downloadFlag c.imageIndex r.imageId = true →
      c.imageWrtLength = 0 ∨ d.imageWrtCount = 0 → ∀ w ∈ k, w.chunk c.imageIndex = none)
    (now : 0 < c.imageWrtLength → ∀ client r, t.partition = some client →
      raw[c.imageIndex]? = some r → downloads c.downloadFlag c.imageIndex r.imageId = true →
      Intake t d (h ++ k) client) : FillAt t d (h ++ k) raw where
  empty j r hr down le new := by
    rw [flags] at down
    rw [index] at le
    rw [index, length] at new
    have before := at_.empty j r hr down le fun eq => (new eq).imp_right fun zero => by omega
    rw [stored_append_none]
    · exact before
    · by_cases same : j = c.imageIndex
      · rw [same] at hr down ⊢
        exact fresh r hr down (new same)
      · exact others j same
  now some client r hp hr down := by
    rw [length] at some
    rw [index] at hr
    rw [index, flags] at down
    exact now some client r hp hr down

theorem EraseRun.chunk {offset n : Nat} {ok : Bool}
    (run : EraseRun e who client offset n s k t ok) (j : Nat) : ∀ w ∈ k, w.chunk j = none := by
  intro w mem
  cases run with
  | skipped | refused => cases mem
  | done | failed =>
    rw [List.mem_singleton.mp mem]
    cases who <;> rfl

theorem entry_chunks {p : Client} {slot j : Nat} (chunks : ∀ w ∈ k, w.chunk j = none) :
    ∀ w ∈ [.op (.entry p.fwdIdx slot) op out, .created i client] ++ k, w.chunk j = none := by
  intro w mem
  obtain mem | mem := List.mem_append.mp mem
  · obtain rfl | mem := List.mem_cons.mp mem
    · rfl
    · rw [List.mem_singleton.mp mem]
      rfl
  · exact chunks w mem

/-- What is done for one image is no data of another. -/
theorem Touches.chunk_other {j : Nat}
    (h : Touches e (fun who _ _ => ∃ o, who = .image i client o) s k t) (ne : j ≠ i) :
    ∀ w ∈ k, w.chunk j = none := by
  intro w mem
  obtain ⟨n, rfl⟩ | ⟨who, op, out, rfl, o, rfl⟩ := h.events w mem
  · rfl
  · refine (Event.Others.of_op fun p offset eq => ?_).chunk
    cases eq
    exact ne rfl

/-- The image gets its partition, of which the first block is erased. -/
theorem Intake.place {v : Event} {ready : Bool} (empty : stored c.imageIndex h = some [])
    (hv : v.chunk c.imageIndex = none) (regular : Regular client)
    (room : max 1 (blockCount c.imageWrtLength) * blockSize ≤ client.imgSize)
    (pos : 0 < c.imageWrtLength) (count : c.imageWrtCount = 0)
    (run : EraseRun e (.image c.imageIndex client 0) client 0 blockSize s k t ready)
    (acked : Acknowledged k) (digest : ready = true → c.digest = .starts)
    (flash : u.flash = t.flash) :
    Intake u c (h ++ [v, .created c.imageIndex client] ++ k) client := by
  have before : stored c.imageIndex (h ++ [v]) = some [] := by
    rw [stored_append_none fun w mem => List.mem_singleton.mp mem ▸ hv]
    exact empty
  have one : EraseRun e (.image c.imageIndex client (0 * blockSize)) client (0 * blockSize)
      (1 * blockSize) s k t ready := by
    rw [Nat.zero_mul, Nat.one_mul]
    exact run
  obtain ⟨filling, ok⟩ := (Filling.created s client before).eraseRun regular one_ne_zero
    (blocks_fit room (Nat.le_max_left ..)) one acked
  refine ⟨[], ?_, count.symm, by omega, by rw [digest ok]; rfl⟩
  rw [count]
  have erased : erasedBlocks 0 c.imageWrtLength = 0 + 1 := by
    rw [erasedBlocks, if_pos pos]
    rfl
  rw [erased]
  have filling := filling.quiet flash
  rw [List.append_assoc] at filling
  simpa using filling

theorem Intake.chunk {a b n : St} {la lb ln : List Event} {ready : Bool}
    (intake : Intake s c h client) (regular : Regular client)
    (room : max 1 (blockCount c.imageWrtLength) * blockSize ≤ client.imgSize) (ne : bytes ≠ [])
    (fit : c.imageWrtCount + bytes.length ≤ c.imageWrtLength)
    (ahead : if Crosses c.imageWrtCount bytes.length then
        EraseRun e (.image c.imageIndex client (aheadOffset c.imageWrtCount)) client
          (aheadOffset c.imageWrtCount) (aheadSize c.imageWrtCount bytes.length) s la a true
      else la = [] ∧ a = s)
    (write : WriteRun e (.image c.imageIndex client c.imageWrtCount) client c.imageWrtCount bytes
      a lb b true)
    (next : if (c.imageWrtCount + bytes.length) % blockSize = 0 ∧
          c.imageWrtCount + bytes.length < c.imageWrtLength then
        EraseRun e (.image c.imageIndex client (c.imageWrtCount + bytes.length)) client
          (c.imageWrtCount + bytes.length) blockSize b ln n ready
      else ln = [] ∧ n = b) (acked : Acknowledged (la ++ lb ++ ln)) (bufOffset : Nat) :
    Intake { n with cxt := some { c with
        bufOffset := bufOffset
        imageWrtCount := c.imageWrtCount + bytes.length
        digest := c.digest.update bytes } } { c with
      bufOffset := bufOffset
      imageWrtCount := c.imageWrtCount + bytes.length
      digest := c.digest.update bytes } (h ++ la ++ lb ++ ln) client := by
  obtain ⟨data, filling, counted, le, digest⟩ := intake
  have more := filling.chunk regular counted ne fit room ahead write next acked
  refine ⟨data ++ bytes, more.quiet rfl, ?_, fit, ?_⟩
  · rw [List.length_append, counted]
  · exact congrArg (· ++ bytes) digest

/-- A piece of the data is refused only if it is empty. -/
theorem Intake.spoil {a b : St} {la lb : List Event} {ok : Bool}
    (intake : Intake s c h client) (regular : Regular client)
    (room : max 1 (blockCount c.imageWrtLength) * blockSize ≤ client.imgSize)
    (fit : c.imageWrtCount + bytes.length ≤ c.imageWrtLength)
    (ahead : if Crosses c.imageWrtCount bytes.length then
        EraseRun e (.image c.imageIndex client (aheadOffset c.imageWrtCount)) client
          (aheadOffset c.imageWrtCount) (aheadSize c.imageWrtCount bytes.length) s la a ok
      else la = [] ∧ a = s ∧ ok = true)
    (write : if ok = true then
        WriteRun e (.image c.imageIndex client c.imageWrtCount) client c.imageWrtCount bytes
          a lb b false
      else lb = [] ∧ b = a) (acked : Acknowledged (la ++ lb)) : bytes = [] := by
  by_contra ne
  obtain ⟨data, filling, counted, le, digest⟩ := intake
  have pos : 0 < bytes.length := List.length_pos_iff.mpr ne
  obtain ⟨erased, rfl⟩ := filling.ahead regular pos fit room ahead
    (acked.mono fun _ mem => List.mem_append_left _ mem)
  rw [if_pos rfl, ← counted] at write
  have fits := le_aheadBlocks c.imageWrtCount pos
  obtain ⟨-, ⟨⟩⟩ := erased.writeRun regular ne (by omega) write
    (acked.mono fun _ mem => List.mem_append_right _ mem)

/-- With no data nothing is erased or written. -/
theorem spoil_nothing {a b : St} {la lb : List Event} {ok : Bool} {count : Nat}
    (ahead : if Crosses count 0 then
        EraseRun e (.image i client (aheadOffset count)) client (aheadOffset count)
          (aheadSize count 0) s la a ok
      else la = [] ∧ a = s ∧ ok = true)
    (write : if ok = true then WriteRun e (.image i client count) client count [] a lb b false
      else lb = [] ∧ b = a) : (∀ w ∈ la ++ lb, ∃ n, w = .note n) ∧ Quiet s b := by
  have first : la = [] ∧ a = s := by
    by_cases crosses : Crosses count 0
    · rw [if_pos crosses] at ahead
      have size : aheadSize count 0 = 0 := by
        have : blockCount (count + 0) - (count / blockSize + 1) = 0 := by
          unfold blockCount blockSize
          omega
        rw [aheadSize, this, Nat.zero_mul]
      cases ahead with
      | skipped | refused => exact ⟨rfl, rfl⟩
      | done fits | failed _ fits => exact absurd size fits.pos
    · rw [if_neg crosses] at ahead
      exact ⟨ahead.1, ahead.2.1⟩
  obtain ⟨rfl, rfl⟩ := first
  split at write
  · cases write with
    | failed bad fits => exact absurd rfl fits.pos
    | refused => exact ⟨fun w mem => absurd mem List.not_mem_nil, .refl _⟩
    | denied quiet => exact ⟨fun w mem => ⟨_, List.mem_singleton.mp mem⟩, quiet⟩
  · obtain ⟨rfl, rfl⟩ := write
    exact ⟨fun w mem => absurd mem List.not_mem_nil, .refl _⟩

theorem Separate.mono (separate : Separate s₀ l) (sub : k ⊆ l) : Separate s₀ k :=
  fun f start size mem => separate f start size (sub mem)

theorem Move.fillAt (m : Move e false (s, h) (t, h')) (hc : s.cxt = some c) (hd : t.cxt = some d)
    (first : c.isFirst = false) (lt : c.imageIndex < c.totalImages) (at_ : FillAt s c h raw)
    (late : Late s) (track : Track s₀ s h) (after : Track s₀ t h') (proper : Proper e s₀ h)
    (proper' : Proper e s₀ h') (separate : Separate s₀ h') (acked : Acknowledged h')
    (only : ∀ raw' hdrs, .images raw' hdrs c.downloadFlag ∈ h' → raw' = raw) :
    FillAt t d h' raw := by
  have sub : h ⊆ h' := by
    obtain ⟨k, rfl, -⟩ := m.effects
    exact fun _ mem => List.mem_append_left _ mem
  obtain ⟨erased, start, size, raw', hdrs, a, selected, loaded⟩ := (track.cxt c hc).loaded first
  cases only _ _ (sub loaded.images)
  have holding : ∀ client r, s.partition = some client → raw[c.imageIndex]? = some r →
      downloads c.downloadFlag c.imageIndex r.imageId = true →
      Clear s₀ client ∧ (0 < c.imageWrtLength → Regular client ∧
        max 1 (blockCount c.imageWrtLength) * blockSize ≤ client.imgSize) := by
    intro client r hp hr down
    obtain ⟨-, clear, length, room⟩ :=
      loaded.holding proper (separate.mono sub) selected lt hp hr down
    rw [length]
    exact ⟨clear, room⟩
  have clear : ∀ client r, s.partition = some client → raw[c.imageIndex]? = some r →
      downloads c.downloadFlag c.imageIndex r.imageId = true → Clear s₀ client :=
    fun client r hp hr down => (holding client r hp hr down).1
  have onward := m.onward proper track hc first d hd
  have before {P : Prop} {state : FwState} (is : c.fwUpgradeState = state)
      (no : state.erased = false) : P := by
    rw [is, no] at erased
    cases erased
  have early {P : Prop} (yes : c.isFirst = true) : P := by cases first.symm.trans yes
  have last {P : Prop} {state : FwState} (is : c.fwUpgradeState = state)
      (yes : state.late = true) : P := absurd (late c hc (by rw [is]; exact yes)).2 (by omega)
  cases m with
  | quiet q =>
    cases hc.symm.trans (q.cxt.symm.trans hd)
    exact at_.still rfl rfl rfl rfl q.flash q.rram (.inr ⟨q.partition, rfl⟩)
  | note | reset =>
    cases hc.symm.trans hd
    exact at_.rest rfl rfl rfl rfl rfl rfl (by simp) (by simp) (.inr ⟨rfl, rfl⟩)
  | close => cases hd
  | attach hs k hc' yes | early _ _ _ _ _ _ _ _ _ hc' yes | headerHash _ _ hc' yes
  | field hc' _ yes | hide hc' _ yes =>
    cases hc.symm.trans hc'
    exact early yes
  | accept hc' _ accepts =>
    cases hc.symm.trans hc'
    exact early accepts.first
  | detach hs hc' =>
    cases hc.symm.trans hc'
    cases hd
    exact at_.still rfl rfl rfl rfl rfl rfl (.inl (partition_free rfl rfl))
  | tune bufLen bufOffset hidden config state hc' edge =>
    cases hc.symm.trans hc'
    cases hd
    exact at_.still rfl rfl rfl rfl rfl rfl (.inr ⟨partition_same hc rfl rfl rfl, rfl⟩)
  | aim _ _ _ hc' state | select hc' state | erased hc' state | notErased hc' state =>
    cases hc.symm.trans hc'
    exact before state rfl
  | bulk hc' state which found touches =>
    cases hc.symm.trans hc'
    cases hc.symm.trans (touches.cxt.symm.trans hd)
    refine at_.elsewhere track hc proper clear touches ?_ ?_
    · rintro _ op out ⟨offset, rfl, part⟩
      exact .part state which found part
    · rintro _ op out ⟨offset, rfl, part⟩ i p o ⟨⟩
  | noEntry hc' state fwd bad entered =>
    cases hc.symm.trans hc'
    have touches := entered.does state fwd
    cases hc.symm.trans (touches.cxt.symm.trans hd)
    refine at_.elsewhere track hc proper clear entered.touches ?_ ?_
    · rintro _ _ _ ⟨rfl, rfl, -⟩
      exact .entry state fwd entered.fwd (entryOf_some entered.slot).1
    · rintro _ _ _ ⟨rfl, -⟩ i p o ⟨⟩
  | skipTo index hc' state loose le skipped =>
    cases hc.symm.trans hc'
    cases hd
    obtain rfl | more := Nat.eq_or_lt_of_le le
    · exact at_.still rfl rfl rfl rfl rfl rfl (.inl (partition_free rfl (by exact loose)))
    · exact at_.skip rfl more (partition_free rfl (by exact loose))
  | emptyFs1 hs hc' state loose first' empty fwd id entered =>
    cases hc.symm.trans hc'
    cases hd
    refine at_.next rfl (Nat.lt_succ_self _) (partition_free rfl (by exact loose)) ?_
    intro j r _ _ _ w mem
    obtain rfl | mem := List.mem_cons.mp mem
    · rfl
    · rw [List.mem_singleton.mp mem]
      rfl
  | begin hc' current len =>
    cases hc.symm.trans hc'
    cases hd
    refine ⟨fun j r hr down le _ => at_.empty j r hr down le fun _ => .inl len, ?_⟩
    intro pos client r hp hr down
    obtain ⟨hdrs', imageHdr, hdr⟩ := current.hdr
    obtain ⟨r', hr', rfl, -⟩ := loaded.received imageHdr hdr
    obtain ⟨r', hr'', -, length, -⟩ :=
      loaded.current lt client (partition_back hp hc rfl rfl rfl)
    cases hr'.symm.trans hr''
    change 0 < r'.aligned.imageLength at pos
    rw [aligned_imageLength, ← length, len] at pos
    exact absurd pos (Nat.lt_irrefl 0)
  | place hs hc' current count len placed entered first' handle reset =>
    rename_i t₁ u l c' img client ready k digest
    cases hc.symm.trans hc'
    cases hd
    obtain ⟨hdrs', imageHdr, hdr⟩ := current.hdr
    obtain ⟨r, hr, rfl, -⟩ := loaded.received imageHdr hdr
    have chunks : ∀ j, ∀ w ∈ l, w.chunk j = none := by
      intro j w mem
      split at first'
      · rw [first'.1] at mem
        cases mem
      · exact first'.chunk j w mem
    rw [List.append_assoc]
    refine at_.grow rfl rfl rfl (Nat.le_refl _) (fun j _ w mem => ?_) (fun r _ _ _ w mem => ?_) ?_
    · exact entry_chunks (chunks j) w mem
    · exact entry_chunks (chunks _) w mem
    · intro pos client' r' hp hr' down
      cases hr.symm.trans hr'
      cases partition_at rfl (by rfl) handle hp
      obtain ⟨-, start', size', raw', hdrs', a', selected', loaded'⟩ :=
        (after.cxt _ rfl).loaded first
      cases only _ _ loaded'.images
      obtain ⟨-, -, length, room⟩ :=
        loaded'.holding proper' separate selected' lt hp hr down
      have length : c.imageWrtLength = r.imageLength := length
      obtain ⟨regular, room⟩ := room (length ▸ pos)
      rw [aligned_imageId, if_neg (downloads_flag down).2.1] at first'
      rw [aligned_imageLength, ← length] at reset
      have empty := at_.empty _ r hr down (Nat.le_refl _) fun _ => .inr count
      rw [← List.append_assoc]
      refine Intake.place (c := { c with partitionHdl := _, digest := _ }) empty rfl regular ?_ pos
        count first' (acked.mono fun _ mem => List.mem_append_right _ mem)
        (fun ready => reset ready pos) rfl
      change max 1 (blockCount c.imageWrtLength) * blockSize ≤ _
      rw [length]
      exact room
  | chunk bufOffset hc' current part ne fit ahead write next =>
    rename_i a' b n la lb ln c' img client bytes ready
    cases hc.symm.trans hc'
    cases hd
    have touches := chunk_touches ahead write next
    have pos : 0 < bytes.length := List.length_pos_iff.mpr ne
    have eq : h ++ la ++ lb ++ ln = h ++ (la ++ (lb ++ ln)) := by simp only [List.append_assoc]
    rw [eq]
    refine at_.grow rfl rfl rfl (Nat.le_add_right ..) (fun j ne w mem => ?_) (fun r _ _ zero => ?_)
      fun some client' r hp hr down => ?_
    · exact touches.chunk_other ne w mem
    · change c.imageWrtLength = 0 ∨ c.imageWrtCount + bytes.length = 0 at zero
      omega
    · have hp := partition_back hp (touches.cxt.trans hc) rfl rfl rfl
      rw [touches.partition] at hp
      cases part.symm.trans hp
      obtain ⟨regular, room⟩ := (holding client r part hr down).2 some
      rw [← eq]
      exact (at_.now some client r part hr down).chunk regular room ne fit ahead write next
        (acked.mono fun _ mem => by simp only [List.append_assoc, List.mem_append] at mem ⊢; tauto)
        bufOffset
  | spoil bufOffset hc' current part fit ahead write =>
    rename_i a' b la lb c' img client bytes ok
    cases hc.symm.trans hc'
    cases hd
    have touches := spoil_touches ahead write
    have nothing : ∀ r, raw[c.imageIndex]? = some r →
        downloads c.downloadFlag c.imageIndex r.imageId = true →
        (∀ w ∈ la ++ lb, ∃ n, w = .note n) ∧ Quiet s b ∧ bytes = [] := by
      intro r hr down
      have none : bytes = [] := by
        obtain zero | some := Nat.eq_zero_or_pos c.imageWrtLength
        · exact List.length_eq_zero_iff.mp (by omega)
        · obtain ⟨regular, room⟩ := (holding client r part hr down).2 some
          exact (at_.now some client r part hr down).spoil regular room fit ahead write
            (acked.mono fun _ mem => by rw [List.append_assoc]; exact List.mem_append_right _ mem)
      subst none
      obtain ⟨notes, quiet⟩ := spoil_nothing ahead write
      exact ⟨notes, quiet, rfl⟩
    rw [List.append_assoc]
    refine at_.grow rfl rfl rfl (Nat.le_refl _) (fun j ne w mem => ?_) (fun r hr down _ w mem => ?_)
      fun some client' r hp hr down => ?_
    · exact touches.chunk_other ne w mem
    · obtain ⟨n, rfl⟩ := (nothing r hr down).1 w mem
      rfl
    · have held := partition_back hp (touches.cxt.trans hc) rfl rfl rfl
      rw [touches.partition] at held
      obtain ⟨notes, quiet, rfl⟩ := nothing r hr down
      obtain ⟨data, filling, counted, le, digest⟩ := at_.now some client' r held hr down
      refine ⟨data, (filling.others ?_ touches.devices ?_).quiet rfl, counted, le, ?_⟩
      · intro w mem
        obtain ⟨n, rfl⟩ := notes w mem
        exact .of_quiet (by rintro _ _ _ ⟨⟩) (by rintro _ ⟨⟩)
      · intro who op out mem
        obtain ⟨n, ⟨⟩⟩ := notes _ mem
      · change c.digest.bytes ++ [] = data
        rw [List.append_nil]
        exact digest
  | lost bufOffset hc' state loose =>
    cases hc.symm.trans hc'
    cases hd
    exact at_.still rfl rfl rfl rfl rfl rfl (.inl (partition_free rfl (by exact loose)))
  | complete hs hc' current part pos full notes q hash =>
    cases hc.symm.trans hc'
    cases hd
    rw [List.append_assoc]
    refine at_.next rfl (Nat.lt_succ_self _) (partition_free rfl rfl) ?_
    intro j r _ _ _ w mem
    obtain mem | mem := List.mem_append.mp mem
    · obtain ⟨n, rfl⟩ := notes w mem
      rfl
    · rw [List.mem_singleton.mp mem]
      rfl
  | giveUp hs hc' state events q =>
    cases hc.symm.trans hc'
    cases hd
    refine at_.rest rfl rfl rfl rfl q.flash q.rram (fun who op out mem => ?_) (fun j p mem => ?_)
      (.inl (partition_free rfl rfl))
    · obtain ⟨n, ⟨⟩⟩ | ⟨i, b, ⟨⟩⟩ := events _ mem
    · obtain ⟨n, ⟨⟩⟩ | ⟨i, b, ⟨⟩⟩ := events _ mem
  | skipEmpty hs hc' current empty len format =>
    cases hc.symm.trans hc'
    cases hd
    exact at_.skip rfl (Nat.lt_succ_self _) (partition_free rfl rfl)
  | dupBegin hc' state | dupPlace _ hc' state | dupWork hc' state | dupNext _ hc' state
  | dupSkip hc' state | validate hc' state | fde hc' state =>
    cases hc.symm.trans hc'
    exact last state rfl

theorem hashPadding_ff (format : Nat) (img : ImageHdr) :
    ∀ b ∈ hashPadding format img, b = 0xFF := by
  intro b mem
  unfold hashPadding at mem
  split at mem
  · exact (List.mem_replicate.mp mem).2
  · cases mem

/-- The current image has been verified. -/
theorem FillAt.verified {img : ImageHdr} (at_ : FillAt s c h raw) (hc : s.cxt = some c)
    (current : Current s c img) (part : s.partition = some client) (pos : 0 < c.imageWrtLength)
    (full : c.imageWrtLength ≤ c.imageWrtCount) (track : Track s₀ s h) (proper : Proper e s₀ h)
    (separate : Separate s₀ h)
    (only : ∀ raw' hdrs, .images raw' hdrs c.downloadFlag ∈ h → raw' = raw)
    (hr : raw[c.imageIndex]? = some r)
    (down : downloads c.downloadFlag c.imageIndex r.imageId = true) (effects : Effects e s k t)
    (silent : ∀ w ∈ k, (∃ n, w = .note n) ∨ ∃ i bytes, w = .hashed i bytes true) :
    Filed s₀ t (h ++ k) c.imageIndex r (c.digest.update (hashPadding c.format img)).bytes client ∧
      client.imgStart + client.imgSize = c.advanced img := by
  obtain ⟨-, start, size, raw', hdrs, a, selected, loaded⟩ := (track.cxt c hc).loaded current.first
  cases only _ _ loaded.images
  obtain ⟨sits, clear, length, -⟩ := loaded.holding proper separate selected current.lt part hr down
  obtain ⟨data, filling, counted, le, digest⟩ := at_.now pos client r part hr down
  have whole : c.imageWrtCount = c.imageWrtLength := Nat.le_antisymm le full
  rw [whole, length] at filling
  have filling := filling.others (t := t) (k := k) (fun w mem => ?_) effects.devices
    fun who op out mem => ?_
  · refine ⟨⟨sits.id, clear, data, hashPadding c.format img, ?_, hashPadding_ff _ _, ?_, filling⟩,
      ?_⟩
    · exact congrArg (· ++ hashPadding c.format img) digest
    · rw [counted, whole, length]
    · obtain ⟨-, fs1, sbl⟩ := downloads_flag down
      obtain ⟨start, size⟩ := sits.region fs1 sbl
      rw [start, size, loaded.advanced proper selected current, sizeAt_pos hr down]
  · obtain ⟨n, rfl⟩ | ⟨j, b, rfl⟩ := silent w mem
    · exact .of_quiet (by rintro _ _ _ ⟨⟩) (by rintro _ ⟨⟩)
    · exact .of_quiet (by rintro _ _ _ ⟨⟩) (by rintro _ ⟨⟩)
  · obtain ⟨n, ⟨⟩⟩ | ⟨j, b, ⟨⟩⟩ := silent _ mem

theorem Move.running (m : Move e false (s, h) (t, h')) (hd : t.cxt = some d) :
    ∃ c, s.cxt = some c := by
  cases m with
  | quiet q => exact ⟨d, q.cxt.symm.trans hd⟩
  | note | reset => exact ⟨d, hd⟩
  | close => cases hd
  | attach _ _ hc | detach _ hc | tune _ _ _ _ _ hc | aim _ _ _ hc | select hc | erased hc
  | notErased hc | bulk hc | hide hc | early _ _ _ _ _ _ _ _ _ hc | headerHash _ _ hc | field hc
  | accept hc | skipTo _ hc | emptyFs1 _ hc | begin hc | noEntry hc | place _ hc | chunk _ hc
  | spoil _ hc | lost _ hc | complete _ hc | giveUp _ hc | skipEmpty _ hc | dupBegin hc
  | dupPlace _ hc | dupWork hc | dupNext _ hc | dupSkip hc | validate hc | fde hc =>
    exact ⟨_, hc⟩

/-- Nothing is done for an image before the header. -/
theorem Does.begun {p : Client} {offset : Nat} (does : Does e s c (.image i p offset) op)
    (late : Late s) (hc : s.cxt = some c) : c.isFirst = false := by
  generalize hw : Issuer.image i p offset = who at does
  cases does with
  | image current => exact current.first
  | copy state => exact (late c hc (by rw [state]; rfl)).1
  | _ => cases hw

/-- The header is accepted once, before anything is said of images. -/
theorem Marks.early {w : Event} (marks : Marks s t k w) (hc : s.cxt = some c)
    (yes : ∀ d, t.cxt = some d → d.isFirst = true) (running : t.cxt ≠ none)
    (first : c.isFirst = true) (late : Late s) (effects : Effects e s k t) (mem : w ∈ k) :
    w.Early := by
  obtain ⟨d, hd⟩ := Option.ne_none_iff_exists'.mp running
  cases marks with
  | images _ _ next => cases (next d hd).symm.trans (yes d hd)
  | created => exact ⟨by rintro _ _ _ ⟨⟩, by rintro _ _ ⟨⟩, fun _ => rfl⟩
  | hashed hc' current =>
    cases hc.symm.trans hc'
    cases first.symm.trans current.first
  | other images created hashed =>
    refine ⟨images, hashed, fun i => ?_⟩
    cases w with
    | op who op out =>
      refine (Event.Others.of_op fun p offset eq => ?_).chunk
      subst eq
      obtain ⟨c', hc', does⟩ := effects.does _ _ _ mem
      cases hc.symm.trans hc'
      cases first.symm.trans (does.begun late hc)
    | _ => rfl

theorem FillTrack.first (fill : FillTrack s₀ s h) (hc : s.cxt = some c) {flags : Nat → Bool}
    (images : .images raw hdrs flags ∈ h) : c.isFirst = false := by
  cases first : c.isFirst with
  | false => rfl
  | true => exact absurd rfl ((fill.early c hc first _ images).images raw hdrs flags)

/-- The header of the session. -/
theorem FillTrack.flags (fill : FillTrack s₀ s h) (track : Track s₀ s h) (hc : s.cxt = some c)
    {flags : Nat → Bool} (images : .images raw hdrs flags ∈ h) : flags = c.downloadFlag := by
  obtain ⟨-, start, size, raw', hdrs', a, -, loaded⟩ :=
    (track.cxt c hc).loaded (fill.first hc images)
  exact (fill.one _ _ _ _ _ _ loaded.images images).2

/-- What a move adds to the header. -/
theorem Move.images (m : Move e false (s, h) (t, h')) {flags : Nat → Bool}
    (fill : FillTrack s₀ s h) (images : .images raw hdrs flags ∈ h')
    (new : .images raw hdrs flags ∉ h) :
    h' = h ++ [.images raw hdrs flags] ∧ (∀ w ∈ h, w.Early) ∧ t.partition = none := by
  obtain ⟨k, rfl, marks⟩ := m.marks
  obtain ⟨k', eq, adds⟩ := m.adds
  cases List.append_cancel_left eq
  have mem := (List.mem_append.mp images).resolve_left new
  cases marks _ mem with
  | @images _ _ _ c hc first _ loose =>
    refine ⟨?_, fill.early c hc first, loose⟩
    cases adds with
    | calm calm => exact absurd (calm _ mem) id
    | start | status => cases List.mem_singleton.mp mem
    | images raw' hdrs' flags' => rw [List.mem_singleton.mp mem]
  | other images => exact absurd rfl (images _ _ _)

theorem FillTrack.step (fill : FillTrack s₀ s h) (m : Move e false (s, h) (t, h')) (late : Late s)
    (track : Track s₀ s h) (after : Track s₀ t h') (proper : Proper e s₀ h)
    (proper' : Proper e s₀ h') (separate : Separate s₀ h') (acked : Acknowledged h') :
    FillTrack s₀ t h' := by
  obtain ⟨k, rfl, marks⟩ := m.marks
  obtain ⟨k', eq, effects⟩ := m.effects
  cases List.append_cancel_left eq
  have sub : h ⊆ h ++ k := fun _ mem => List.mem_append_left _ mem
  have separated := separate.mono sub
  -- With a header in the trace, the session goes on.
  have onward : ∀ {raw hdrs flags c d}, .images raw hdrs flags ∈ h → s.cxt = some c →
      t.cxt = some d → Onward c d := fun images hc hd =>
    m.onward proper track hc (fill.first hc images) _ hd
  have one : ∀ raw hdrs flags raw' hdrs' flags', .images raw hdrs flags ∈ h ++ k →
      .images raw' hdrs' flags' ∈ h ++ k → raw' = raw ∧ flags' = flags := by
    intro raw hdrs flags raw' hdrs' flags' mem mem'
    by_cases old : .images raw hdrs flags ∈ h
    · by_cases old' : .images raw' hdrs' flags' ∈ h
      · exact fill.one _ _ _ _ _ _ old old'
      · exact absurd rfl (((m.images fill mem' old').2.1 _ old).images _ _ _)
    · obtain ⟨eq, early, -⟩ := m.images fill mem old
      rw [eq] at mem'
      obtain mem' | mem' := List.mem_append.mp mem'
      · exact absurd rfl ((early _ mem').images _ _ _)
      · cases List.mem_singleton.mp mem'
        exact ⟨rfl, rfl⟩
  refine ⟨fun d hd first w mem => ?_, one, ?_, ?_⟩
  · obtain ⟨c, hc⟩ := m.running hd
    have before : c.isFirst = true := by
      cases first' : c.isFirst with
      | true => rfl
      | false => cases first.symm.trans (m.onward proper track hc first' d hd).first
    obtain mem | mem := List.mem_append.mp mem
    · exact fill.early c hc before w mem
    · refine (marks w mem).early hc (fun d' hd' => ?_) (by simp [hd]) before late effects mem
      cases hd.symm.trans hd'
      exact first
  · intro raw hdrs flags i r bytes images hr down hashed
    by_cases old : .hashed (some i) bytes true ∈ h
    · have before : .images raw hdrs flags ∈ h := by
        by_contra new
        exact absurd rfl (((m.images fill images new).2.1 _ old).hashed _ _)
      obtain ⟨client, filed, ahead⟩ := fill.past _ _ _ _ _ _ before hr down old
      refine ⟨client, filed.step proper late track effects marks fun c hc => ?_, fun d hd => ?_⟩
      · obtain ⟨lt, le⟩ := ahead c hc
        rw [← fill.flags track hc before]
        exact ⟨fill.first hc before, lt, (downloads_flag down).1, le⟩
      · obtain ⟨c, hc⟩ := m.running hd
        obtain ⟨lt, le⟩ := ahead c hc
        have go := onward before hc hd
        exact ⟨Nat.lt_of_lt_of_le lt go.index, Nat.le_trans le go.start⟩
    · have mem := (List.mem_append.mp hashed).resolve_left old
      have before : .images raw hdrs flags ∈ h := by
        by_contra new
        rw [List.append_cancel_left (m.images fill images new).1] at mem
        cases List.mem_singleton.mp mem
      cases marks _ mem with
      | hashed hc current part pos full next silent =>
        cases fill.flags track hc before
        obtain ⟨filed, end_⟩ := (fill.cxt _ _ _ hc current.lt before).verified hc current part pos
          full track proper separated (fun _ _ images' => (fill.one _ _ _ _ _ _ before images').1)
          hr down effects silent
        refine ⟨_, filed, fun d hd => ?_⟩
        obtain ⟨index, start⟩ := next d hd
        rw [index, start]
        exact ⟨Nat.lt_succ_self _, Nat.le_of_eq end_⟩
      | other _ _ hashed => exact absurd rfl (hashed _ _)
  · intro d raw hdrs hd lt images
    by_cases old : .images raw hdrs d.downloadFlag ∈ h
    · obtain ⟨c, hc⟩ := m.running hd
      have go := onward old hc hd
      rw [go.flags] at old images
      have lt' : c.imageIndex < c.totalImages := by
        have := go.index
        rw [← go.total]
        omega
      exact m.fillAt hc hd (fill.first hc old) lt' (fill.cxt c raw hdrs hc lt' old) late track after
        proper proper' separate acked fun raw' hdrs' images' => (one _ _ _ _ _ _ images images').1
    · obtain ⟨eq, early, loose⟩ := m.images fill images old
      rw [eq]
      refine .start early loose fun w mem j => ?_
      rw [List.mem_singleton.mp mem]
      rfl

end Move

/-! ## The session -/

/-- Before anything is done. -/
theorem FillTrack.still (blank : ∀ w ∈ l, w.Early) : FillTrack s₀ s l where
  early := fun _ _ _ => blank
  one := fun raw hdrs flags _ _ _ images => absurd rfl ((blank _ images).images raw hdrs flags)
  past := fun raw hdrs flags _ _ _ images => absurd rfl ((blank _ images).images raw hdrs flags)
  cxt := fun c raw hdrs _ _ images => absurd rfl ((blank _ images).images raw hdrs c.downloadFlag)

theorem fill_of_moves {h h' : List Event} (moves : Moves e false (s, h) (t, h')) (late : Late s)
    (proper : Proper e s₀ h') (separate : Separate s₀ h') (acked : Acknowledged h')
    (track : Track s₀ s h) (fill : FillTrack s₀ s h) : FillTrack s₀ t h' := by
  refine ((invariant_of_step (I := fun x => Late x.1 ∧ (Proper e s₀ x.2 → Track s₀ x.1 x.2) ∧
      (Proper e s₀ x.2 → Separate s₀ x.2 → Acknowledged x.2 → FillTrack s₀ x.1 x.2))
    (fun x y h m => ?_) moves ⟨late, fun _ => track, fun _ _ _ => fill⟩).2.2) proper separate acked
  obtain ⟨late, track, fill⟩ := h
  obtain ⟨k, eq, -⟩ := m.effects
  have sub : x.2 ⊆ y.2 := by
    rw [eq]
    exact fun _ mem => List.mem_append_left _ mem
  have before : Proper e s₀ y.2 → Proper e s₀ x.2 := by
    rw [eq]
    exact Proper.before
  have after : Proper e s₀ y.2 → Track s₀ y.1 y.2 := fun proper =>
    m.track (before proper) late (track (before proper))
  refine ⟨m.late late, after, fun proper separate acked => ?_⟩
  exact (fill (before proper) (separate.mono sub) (acked.mono sub)).step m late
    (track (before proper)) (after proper) (before proper) proper separate acked

theorem Since.filled (since : Since e false s₀ s l) (proper : Proper e s₀ l)
    (separate : Separate s₀ l) (acked : Acknowledged l) : FillTrack s₀ s l := by
  have quiet : ∀ {k : List Event}, (∀ w ∈ k, ∃ n, w = .note n) → ∀ w ∈ k, w.Early := by
    intro k notes w mem
    obtain ⟨n, rfl⟩ := notes w mem
    exact ⟨by rintro _ _ _ ⟨⟩, by rintro _ _ ⟨⟩, fun _ => rfl⟩
  cases since with
  | idle _ _ notes => exact .still (quiet notes)
  | @moves s₁ k fresh still notes moves =>
    have first : ∀ c, s₁.cxt = some c → c = freshCxt := fun c hc =>
      (Option.some.inj (fresh.symm.trans hc)).symm
    have blank : ∀ w ∈ k ++ [.start], w.Early := by
      intro w mem
      obtain mem | mem := List.mem_append.mp mem
      · exact quiet notes w mem
      · rw [List.mem_singleton.mp mem]
        exact ⟨by rintro _ _ _ ⟨⟩, by rintro _ _ ⟨⟩, fun _ => rfl⟩
    have track : Track s₀ s₁ (k ++ [.start]) := by
      refine .still still (fun who op out mem => ?_) first
      obtain mem | mem := List.mem_append.mp mem
      · obtain ⟨n, ⟨⟩⟩ := notes _ mem
      · cases List.mem_singleton.mp mem
    have late : Late s₁ := .of_state fresh fun h => by cases h
    exact fill_of_moves moves late proper separate acked track (.still blank)

/-- The partition of image `i`, in which the events since it was created have left `data`. -/
structure Deposited (s : St) (after : List Event) (i : Nat) (r : ImageHdr) (client : Client)
    (data : List UInt8) : Prop where
  id : client.imgId = r.imageId
  length : data.length = r.imageLength
  flash : load s.flash client.imgStart r.imageLength = data
  any : ∀ m, load (Nor.run m (imageCmds i after)) client.imgStart r.imageLength = data
  inside : ∀ cmd ∈ imageCmds i after, client.imgStart ≤ cmd.start ∧
    cmd.start + cmd.size ≤ client.imgStart + client.imgSize
  once : ∀ n < max 1 (blockCount r.imageLength),
    Nor.ErasedOnce (client.imgStart + n * blockSize) blockSize (imageCmds i after)

theorem Filling.deposited {r : ImageHdr} (h : Filling s l i client data (erasedBlocks
    r.imageLength r.imageLength)) (id : client.imgId = r.imageId)
    (length : data.length = r.imageLength) : ∃ before after,
      l = before ++ .created i client :: after ∧ Deposited s after i r client data := by
  obtain ⟨before, after, rfl, -, filled, -⟩ := h.since
  refine ⟨before, after, rfl, id, length, ?_, fun m => ?_, fun cmd mem => ?_, fun n lt => ?_⟩
  · rw [← length]
    exact h.load_eq
  · rw [← length]
    exact filled.stored m
  · have := filled.inside cmd mem
    have := h.room
    omega
  · apply filled.once
    rw [erasedBlocks, if_neg (Nat.lt_irrefl _)]
    exact lt

/-- When a downloaded image has been verified, what it was verified over is in the flash, but for
the padding. Each block was erased once, before anything was written to it, so that it does not
matter what the partition held before. -/
theorem verified_images_stored (calls : Calls e Fresh s₀ s l) (proper : Proper e s₀ l)
    (separate : Separate s₀ l) (acked : Acknowledged l) {raw hdrs : List ImageHdr}
    {flags : Nat → Bool} {r : ImageHdr} (images : .images raw hdrs flags ∈ l)
    (hr : raw[i]? = some r) (down : downloads flags i r.imageId = true)
    (hashed : .hashed (some i) bytes true ∈ l) :
    ∃ data pad before client after, bytes = data ++ pad ∧ (∀ b ∈ pad, b = 0xFF) ∧
      stored i l = some data ∧ l = before ++ .created i client :: after ∧
      Deposited s after i r client data := by
  have again : ∀ s p, Fresh s p → p.offset = 0 ∨ false = true ∨ NotBegun s :=
    fun s p h => h.imp_right .inr
  have fill := (calls.since false again).2.filled proper separate acked
  obtain ⟨client, filed, -⟩ := fill.past raw hdrs flags i r bytes images hr down hashed
  obtain ⟨data, pad, eq, ff, length, filling⟩ := filed.filled
  obtain ⟨before, after, split, deposited⟩ := filling.deposited filed.id length
  exact ⟨data, pad, before, client, after, eq, ff, filling.stored, split, deposited⟩

theorem separate_upper (selects : l.all Event.selectsUpper = true) : Separate plainDevice l := by
  have listed : activeFwd plainDevice.rram = 0 ∧ entryOf plainDevice.flash 0 fs2ImgId = some 1 ∧
      entryOf plainDevice.flash 0 ramdumpImgId = none ∧
      ((fwdEntry plainDevice.flash 0 1).client 0 1).imgStart = 4 * blockSize ∧
      ((fwdEntry plainDevice.flash 0 1).client 0 1).imgSize = blockSize := by decide
  obtain ⟨active, fs2, ramdump, at_, length⟩ := listed
  rintro f start size mem id p which ⟨lt, j, found, rfl⟩
  obtain ⟨rfl, rfl⟩ := selected_upper selects mem
  rw [active] at found ⊢
  obtain rfl | rfl := which
  · cases fs2.symm.trans found
    rw [at_, length]
    exact .inl (by decide)
  · cases ramdump.symm.trans found

theorem plainRun_separate : Separate plainDevice plainRun := separate_upper plainRun_selects

theorem Acknowledged.of_all (all : l.all Event.acknowledged = true) : Acknowledged l where
  ops who op out mem := by
    have yes := mem_of_all all mem
    cases out with
    | done => rfl
    | failed | rejected => cases yes
  allocs b mem := by cases mem_of_all all mem

/-- The image of the header is downloaded and verified. -/
theorem plainRun_verifies : Acknowledged plainRun ∧ ∃ hdrs flags,
    .images [plainImage appImgId blockSize 1] hdrs flags ∈ plainRun ∧
    downloads flags 0 appImgId = true ∧ .hashed (some 0) [7] true ∈ plainRun := by
  obtain ⟨-, -, acked, loaded, verified⟩ := plainRun_checks
  obtain ⟨v, images, loads⟩ := List.any_eq_true.mp loaded
  obtain ⟨w, hashed, verifies⟩ := List.any_eq_true.mp verified
  cases v with
  | images raw hdrs flags =>
    simp only [Event.loads, Bool.and_eq_true, beq_iff_eq] at loads
    obtain ⟨rfl, flag⟩ := loads
    refine ⟨.of_all acked, hdrs, flags, images, ?_, ?_⟩
    · unfold downloads
      rw [flag]
      rfl
    · cases w with
      | hashed image bytes equal =>
        cases image with
        | some j =>
          cases equal with
          | true =>
            simp only [Event.verifies, Bool.and_eq_true, beq_iff_eq] at verifies
            obtain ⟨rfl, rfl⟩ := verifies
            exact hashed
          | false => cases verifies
        | none => cases verifies
      | _ => cases verifies
  | _ => cases loads

theorem plainRun_stored : ∃ data pad before client after, [7] = data ++ pad ∧
    (∀ b ∈ pad, b = 0xFF) ∧ stored 0 plainRun = some data ∧
    plainRun = before ++ .created 0 client :: after ∧
    Deposited (sessionProcess plainEnv 40 (.of 0 plainUpload) plainDevice).state after 0
      (plainImage appImgId blockSize 1) client data := by
  have idle : Calls plainEnv Fresh plainDevice plainDevice [] := .idle rfl
  obtain ⟨acked, hdrs, flags, images, down, hashed⟩ := plainRun_verifies
  exact verified_images_stored (idle.restart 40 (.of 0 plainUpload) rfl (.inl rfl))
    plainRun_proper plainRun_separate acked images rfl down hashed

end Qapp.Fw
