import Qapp.Fw.Steady
import Qapp.Fw.Moves

/-!
# Streams of a header and its images

A stream is a header followed by the images that are to be downloaded, in their order.
What a session has stored is compared with the part of the stream that each image is.
-/

namespace Qapp.Fw
open ByteMem Traced

variable {e : Env} {S : List UInt8} {flags : Nat → Bool} {pos taken : Nat}

/-! ## Where the images are -/

/-- The entries of the header `S` begins with, as they are accepted. -/
def streamHdrs (S : List UInt8) : List ImageHdr :=
  (checkEntries (parseImageHdrs (hdrNumImages S) ((S.take (hdrLength S)).drop hdrPart1Len))
    ⟨0, 0, false, false, 0⟩).1

def imageLen (S : List UInt8) (i : Nat) : Nat :=
  ((streamHdrs S)[i]?.map ImageHdr.imageLength).getD 0

/-- Where image `i` begins. Images that are not downloaded are not in the stream. -/
def imageStart (S : List UInt8) (flags : Nat → Bool) : Nat → Nat
  | 0 => hdrLength S
  | i + 1 => imageStart S flags i + if flags i then imageLen S i else 0

/-- What the first `pos` bytes of the stream have of image `i`. -/
def imagePart (S : List UInt8) (flags : Nat → Bool) (pos i : Nat) : List UInt8 :=
  ((S.take pos).drop (imageStart S flags i)).take (imageLen S i)

theorem imagePart_eq (S : List UInt8) (flags : Nat → Bool) (pos i : Nat) :
    imagePart S flags pos i =
      (S.drop (imageStart S flags i)).take (min (imageLen S i) (pos - imageStart S flags i)) := by
  rw [imagePart, List.drop_take, List.take_take]

theorem imageStart_mono {i j : Nat} (le : i ≤ j) :
    imageStart S flags i ≤ imageStart S flags j := by
  induction le with
  | refl => exact Nat.le_refl _
  | step _ ih => exact Nat.le_trans ih (Nat.le_add_right _ _)

/-- A downloaded image ends before the next one begins. -/
theorem imageEnd_le {i j : Nat} (flag : flags i = true) (lt : i < j) :
    imageStart S flags i + imageLen S i ≤ imageStart S flags j := by
  have next : imageStart S flags (i + 1) = imageStart S flags i + imageLen S i := by
    rw [imageStart, if_pos flag]
  rw [← next]
  exact imageStart_mono lt

/-- Images that are not downloaded take no room. -/
theorem imageStart_skip {i j : Nat} (le : i ≤ j)
    (skipped : ∀ m, i ≤ m → m < j → flags m = false) :
    imageStart S flags j = imageStart S flags i := by
  induction le with
  | refl => rfl
  | @step j le ih =>
    have no : flags j = false := skipped j le (Nat.lt_succ_self j)
    rw [imageStart, no, ih fun m lo hi => skipped m lo (Nat.lt_succ_of_lt hi)]
    rfl

theorem imageLen_of_get {i : Nat} {img : ImageHdr} (hdr : (streamHdrs S)[i]? = some img) :
    imageLen S i = img.imageLength := by
  rw [imageLen, hdr]
  rfl

theorem imageLen_of_le {i : Nat} (le : (streamHdrs S).length ≤ i) : imageLen S i = 0 := by
  rw [imageLen, List.getElem?_eq_none le]
  rfl

/-- Only the current image gains from more bytes. -/
theorem imagePart_other {i j n : Nat} (flag : flags j = true) (other : flags i = true)
    (ne : i ≠ j) (lo : imageStart S flags j ≤ taken)
    (hi : taken + n ≤ imageStart S flags j + imageLen S j) :
    imagePart S flags (taken + n) i = imagePart S flags taken i := by
  rw [imagePart_eq, imagePart_eq]
  congr 1
  obtain before | after := Nat.lt_or_gt_of_ne ne
  · have := @imageEnd_le S _ _ _ other before
    omega
  · have := @imageEnd_le S _ _ _ flag after
    omega

/-- The current image gains what comes next. -/
theorem imagePart_grow {i n : Nat} (lo : imageStart S flags i ≤ taken)
    (hi : taken + n ≤ imageStart S flags i + imageLen S i) :
    imagePart S flags (taken + n) i = imagePart S flags taken i ++ (S.drop taken).take n := by
  obtain ⟨d, rfl⟩ := Nat.exists_eq_add_of_le lo
  rw [imagePart_eq, imagePart_eq, Nat.min_eq_right (by omega), Nat.min_eq_right (by omega),
    show imageStart S flags i + d + n - imageStart S flags i = d + n by omega,
    Nat.add_sub_cancel_left, List.take_add, List.drop_drop]

theorem imagePart_length {i : Nat} (inside : taken ≤ S.length) :
    (imagePart S flags taken i).length = min (imageLen S i) (taken - imageStart S flags i) := by
  rw [imagePart_eq, List.length_take, List.length_drop]
  omega

/-- Beyond its end nothing is added to an image. -/
theorem imagePart_full {i : Nat} (whole : imageStart S flags i + imageLen S i ≤ taken)
    (le : taken ≤ pos) : imagePart S flags pos i = imagePart S flags taken i := by
  rw [imagePart_eq, imagePart_eq]
  congr 1
  omega

/-! ## What has been stored -/

/-- The write of data of image `i`: its offset and the bytes. -/
def Event.chunk (i : Nat) : Event → Option (Nat × List UInt8)
  | .op (.image j _ offset) (.write _ bytes) _ => if j = i then some (offset, bytes) else none
  | .op (.image j _ offset) (.rramWrite _ bytes) _ => if j = i then some (offset, bytes) else none
  | _ => none

/-- Adds a chunk that begins where the bytes so far end. -/
def appendChunk (acc : Option (List UInt8)) (chunk : Nat × List UInt8) : Option (List UInt8) :=
  acc.bind fun bytes => if chunk.1 = bytes.length then some (bytes ++ chunk.2) else none

/-- What has been written for image `i`, if each write began where the one before ended. -/
def stored (i : Nat) (l : List Event) : Option (List UInt8) :=
  (l.filterMap (Event.chunk i)).foldl appendChunk (some [])

theorem Event.chunk_of_apart {w : Event} (apart : w.apart = true) (i : Nat) : w.chunk i = none := by
  cases w with
  | op who op out =>
    cases who with
    | image =>
      cases op with
      | erase => rfl
      | write | rramWrite => cases apart
    | _ => rfl
  | _ => rfl

theorem stored_append_none {i : Nat} {l k : List Event} (none : ∀ w ∈ k, w.chunk i = none) :
    stored i (l ++ k) = stored i l := by
  have : k.filterMap (Event.chunk i) = [] := List.filterMap_eq_nil_iff.mpr none
  rw [stored, List.filterMap_append, this, List.append_nil]
  rfl

theorem stored_snoc {i : Nat} {l : List Event} {w : Event} {bytes data : List UInt8}
    (before : stored i l = some bytes) (chunk : w.chunk i = some (bytes.length, data)) :
    stored i (l ++ [w]) = some (bytes ++ data) := by
  have one : [w].filterMap (Event.chunk i) = [(bytes.length, data)] :=
    List.filterMap_cons_some chunk
  rw [stored, List.filterMap_append, List.foldl_append, one]
  change appendChunk (stored i l) (bytes.length, data) = _
  rw [before]
  exact if_pos rfl

/-- The bytes that are hashed after image `i` itself. -/
def imagePadding (S : List UInt8) (i : Nat) : List UInt8 :=
  (((streamHdrs S)[i]?).map (hashPadding (hdrFormat S))).getD []

/-- As far as `pos`, the stream has been used as it is to be: for each image to download, what
has been written is its own part, and what is verified is all of it. -/
structure Exact (S : List UInt8) (pos : Nat) (l : List Event) : Prop where
  header : (∀ raw hdrs flags, .images raw hdrs flags ∉ l) → ∀ w ∈ l, w.apart = true
  stored : ∀ raw hdrs flags, .images raw hdrs flags ∈ l → hdrs = streamHdrs S ∧
    ∀ i, flags i = true → stored i l = some (imagePart S flags pos i)
  hashed : ∀ i bytes equal, .hashed (some i) bytes equal ∈ l → ∃ raw flags,
    .images raw (streamHdrs S) flags ∈ l ∧ flags i = true ∧
      imageStart S flags i + imageLen S i ≤ pos ∧
      bytes = imagePart S flags pos i ++ imagePadding S i

/-- Of the first `n` images, those that are downloaded and not empty have been verified. -/
def Digested (flags : Nat → Bool) (S : List UInt8) (n : Nat) (l : List Event) : Prop :=
  ∀ i < n, flags i = true → 0 < imageLen S i → ∃ bytes, .hashed (some i) bytes true ∈ l

/-- The hash of every image that is all in the first `pos` bytes has been found right. -/
def AllVerified (S : List UInt8) (pos : Nat) (l : List Event) : Prop :=
  ∀ raw hdrs flags, .images raw hdrs flags ∈ l → ∀ i, flags i = true → 0 < imageLen S i →
    imageStart S flags i + imageLen S i ≤ pos → ∃ bytes, .hashed (some i) bytes true ∈ l

theorem Digested.append {l : List Event} {n : Nat} (h : Digested flags S n l) (k : List Event) :
    Digested flags S n (l ++ k) := by
  intro i lt flag pos
  obtain ⟨bytes, mem⟩ := h i lt flag pos
  exact ⟨bytes, List.mem_append_left k mem⟩

/-- Nothing of the images yet. -/
theorem Exact.blank {l : List Event} (blank : ∀ w ∈ l, w.apart = true) : Exact S pos l where
  header := fun _ => blank
  stored := fun _ _ _ mem => absurd (blank _ mem) (by rintro ⟨⟩)
  hashed := fun _ _ _ mem => absurd (blank _ mem) (by rintro ⟨⟩)

/-- Events that are not about images do not matter. -/
theorem Exact.apart {l k : List Event} (h : Exact S pos l) (apart : ∀ w ∈ k, w.apart = true) :
    Exact S pos (l ++ k) where
  header none w mem := by
    obtain mem | mem := List.mem_append.mp mem
    · exact h.header (fun _ _ _ mem => none _ _ _ (List.mem_append_left _ mem)) w mem
    · exact apart w mem
  stored raw hdrs flags mem := by
    obtain mem | mem := List.mem_append.mp mem
    · obtain ⟨same, stored⟩ := h.stored _ _ _ mem
      apply And.intro same
      intro i flag
      rw [stored_append_none fun w mem => Event.chunk_of_apart (apart w mem) i]
      exact stored i flag
    · cases apart _ mem
  hashed i bytes equal mem := by
    obtain mem | mem := List.mem_append.mp mem
    · obtain ⟨raw, flags, images, rest⟩ := h.hashed _ _ _ mem
      exact ⟨raw, flags, List.mem_append_left _ images, rest⟩
    · cases apart _ mem

/-- The header has been accepted, and the stream has been used as far as `taken`. -/
structure Ledger (S : List UInt8) (flags : Nat → Bool) (taken : Nat) (l : List Event) :
    Prop where
  announced : ∃ raw, .images raw (streamHdrs S) flags ∈ l
  only : ∀ raw hdrs flags', .images raw hdrs flags' ∈ l → hdrs = streamHdrs S ∧ flags' = flags
  inside : taken ≤ S.length
  stored : ∀ i, flags i = true → stored i l = some (imagePart S flags taken i)
  hashed : ∀ i bytes equal, .hashed (some i) bytes equal ∈ l → flags i = true ∧
    imageStart S flags i + imageLen S i ≤ taken ∧
    bytes = imagePart S flags taken i ++ imagePadding S i

namespace Ledger
variable {l k : List Event}

theorem exact (h : Ledger S flags taken l) : Exact S taken l where
  header := fun none => absurd h.announced.choose_spec (none _ _ _)
  stored := by
    intro raw hdrs flags' mem
    obtain ⟨same, rfl⟩ := h.only _ _ _ mem
    exact ⟨same, h.stored⟩
  hashed := fun i bytes equal mem => ⟨_, _, h.announced.choose_spec, h.hashed i bytes equal mem⟩

/-- Events that are not about images, and copies of images that are not downloaded. -/
theorem append (h : Ledger S flags taken l) (images : ∀ raw hdrs flags', .images raw hdrs flags' ∉ k)
    (hashed : ∀ i bytes equal, .hashed (some i) bytes equal ∉ k)
    (chunks : ∀ i, flags i = true → ∀ w ∈ k, w.chunk i = none) :
    Ledger S flags taken (l ++ k) where
  announced := ⟨_, List.mem_append_left _ h.announced.choose_spec⟩
  only := by
    intro raw hdrs flags' mem
    obtain mem | mem := List.mem_append.mp mem
    · exact h.only _ _ _ mem
    · exact absurd mem (images _ _ _)
  inside := h.inside
  stored := by
    intro i flag
    rw [stored_append_none (chunks i flag)]
    exact h.stored i flag
  hashed := by
    intro i bytes equal mem
    obtain mem | mem := List.mem_append.mp mem
    · exact h.hashed _ _ _ mem
    · exact absurd mem (hashed _ _ _)

theorem apart (h : Ledger S flags taken l) (apart : ∀ w ∈ k, w.apart = true) :
    Ledger S flags taken (l ++ k) :=
  h.append (fun _ _ _ mem => absurd (apart _ mem) (by rintro ⟨⟩))
    (fun _ _ _ mem => absurd (apart _ mem) (by rintro ⟨⟩))
    fun i _ w mem => Event.chunk_of_apart (apart w mem) i

/-- The next bytes are written to the image they belong to. -/
theorem write (h : Ledger S flags taken l) {i n : Nat} {w : Event} (flag : flags i = true)
    (lo : imageStart S flags i ≤ taken) (hi : taken + n ≤ imageStart S flags i + imageLen S i)
    (inside : taken + n ≤ S.length)
    (chunk : ∀ j, w.chunk j =
      if i = j then some (taken - imageStart S flags i, (S.drop taken).take n) else none)
    (op : ∃ who op out, w = .op who op out) : Ledger S flags (taken + n) (l ++ [w]) where
  announced := ⟨_, List.mem_append_left _ h.announced.choose_spec⟩
  only := by
    intro raw hdrs flags' mem
    obtain mem | mem := List.mem_append.mp mem
    · exact h.only _ _ _ mem
    · obtain ⟨_, _, _, rfl⟩ := op
      cases List.mem_singleton.mp mem
  inside := inside
  stored := by
    intro j flag'
    by_cases same : i = j
    · subst same
      rw [imagePart_grow lo hi]
      apply stored_snoc (h.stored i flag)
      rw [chunk, if_pos rfl, imagePart_length h.inside, Nat.min_eq_right (by omega)]
    · rw [imagePart_other flag flag' (Ne.symm same) lo hi, stored_append_none]
      · exact h.stored j flag'
      · intro w' mem
        rw [List.mem_singleton.mp mem, chunk, if_neg same]
  hashed := by
    intro j bytes equal mem
    obtain mem | mem := List.mem_append.mp mem
    · obtain ⟨flag', whole, eq⟩ := h.hashed _ _ _ mem
      rw [imagePart_full whole (Nat.le_add_right _ _)]
      exact ⟨flag', by omega, eq⟩
    · obtain ⟨_, _, _, rfl⟩ := op
      cases List.mem_singleton.mp mem

/-- An image is verified once all of it has been used. -/
theorem verify (h : Ledger S flags taken l) {i : Nat} {bytes : List UInt8}
    (flag : flags i = true) (whole : imageStart S flags i + imageLen S i ≤ taken)
    (eq : bytes = imagePart S flags taken i ++ imagePadding S i)
    (events : ∀ w ∈ k, w.apart = true ∨ ∃ equal, w = .hashed (some i) bytes equal) :
    Ledger S flags taken (l ++ k) where
  announced := ⟨_, List.mem_append_left _ h.announced.choose_spec⟩
  only := by
    intro raw hdrs flags' mem
    obtain mem | mem := List.mem_append.mp mem
    · exact h.only _ _ _ mem
    · obtain ⟨⟨⟩⟩ | ⟨_, ⟨⟩⟩ := events _ mem
  inside := h.inside
  stored := by
    intro j flag'
    rw [stored_append_none]
    · exact h.stored j flag'
    · intro w mem
      obtain apart | ⟨_, rfl⟩ := events w mem
      · exact Event.chunk_of_apart apart j
      · rfl
  hashed := by
    intro j bytes' equal' mem
    obtain mem | mem := List.mem_append.mp mem
    · exact h.hashed _ _ _ mem
    · obtain ⟨⟨⟩⟩ | ⟨_, ⟨rfl, rfl, rfl⟩⟩ := events _ mem
      exact ⟨flag, whole, eq⟩

/-- When every image is complete, it does not matter what follows. -/
theorem complete (h : Ledger S flags taken l) (le : taken ≤ pos) (inside : pos ≤ S.length)
    (whole : ∀ i, flags i = true → imageStart S flags i + imageLen S i ≤ taken) :
    Ledger S flags pos l where
  announced := h.announced
  only := h.only
  inside := inside
  stored := by
    intro i flag
    rw [imagePart_full (whole i flag) le]
    exact h.stored i flag
  hashed := by
    intro i bytes equal mem
    obtain ⟨flag, all, eq⟩ := h.hashed _ _ _ mem
    rw [imagePart_full all le]
    exact ⟨flag, Nat.le_trans all le, eq⟩

end Ledger

/-! ## Packets -/

/-- The packet carries the next bytes of the stream. -/
structure Carries (S : List UInt8) (pos : Nat) (p : Packet) : Prop where
  offset : p.offset = pos
  nonempty : 0 < p.len
  inside : pos + p.len ≤ S.length
  data : load p.data 0 p.len = (S.drop pos).take p.len

theorem Carries.bytes {p : Packet} (h : Carries S pos p) {offset n : Nat}
    (fits : offset + n ≤ p.len) : load p.data offset n = (S.drop (pos + offset)).take n := by
  have part : load p.data (0 + offset) (p.len - offset) =
      (S.drop (pos + offset)).take (p.len - offset) := by
    rw [← drop_load p.data 0 (by omega), h.data, List.drop_take, List.drop_drop]
  rw [Nat.zero_add] at part
  rw [← take_load p.data offset (show n ≤ p.len - offset by omega), part, List.take_take,
    Nat.min_eq_left (by omega)]

/-- The calls that upload the first bytes of a stream, each after the one before has returned
OK: the state they lead to, how many bytes they pass, and what has happened. `ok` is what the
packets meet, given where they begin and their length. -/
inductive Feed (e : Env) (S : List UInt8) (ok : Nat → Nat → Prop) : St → Nat → List Event → Prop
  | idle (s : St) : Feed e S ok s 0 []
  | packet {s : St} {pos : Nat} {l : List Event} (feed : Feed e S ok s pos l) (fuel : Nat)
      (p : Packet) (carries : Carries S pos p) (met : ok pos p.len)
      (done : (sessionProcess e fuel p s).res = .ok true) :
      Feed e S ok (sessionProcess e fuel p s).state (pos + p.len)
        (l ++ (sessionProcess e fuel p s).trace)

end Qapp.Fw
