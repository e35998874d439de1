import Qapp.Fw.Descent
import Mathlib.Data.Finset.Card
import Mathlib.Data.Finset.Range

/-!
# The rank of a session

What the passes of the session loop use up: the header, then the images and the data of each,
and the states in between. Past the last image `PREPARE_CONNECT` may come back to itself, but
each time it has filled an entry of the trial FWD.
-/

namespace Qapp.Fw
open ByteMem Traced

/-- Header bytes, images, data of an image and states to come, in this order. -/
abbrev Rank := ℕ ×ₗ ℕ ×ₗ ℕ ×ₗ ℕ

def Rank.of (header images data states : Nat) : Rank :=
  toLex (header, toLex (images, toLex (data, states)))

theorem Rank.of_lt {a b c d a' b' c' d' : Nat} : Rank.of a b c d < Rank.of a' b' c' d' ↔
    a < a' ∨ a = a' ∧ (b < b' ∨ b = b' ∧ (c < c' ∨ c = c' ∧ d < d')) := by
  simp only [Rank.of, Prod.Lex.toLex_lt_toLex]

def headerMissing (c : Cxt) : Nat :=
  match c.configBuf with
  | none => 2 ^ 32
  | some b => hdrLength b - c.imageWrtCount

def headerLeft (c : Cxt) : Nat := if c.isFirst then headerMissing c + 1 else 0

def imagesLeft (c : Cxt) : Nat := if c.isFirst then 0 else c.totalImages - c.imageIndex

def freeEntries (m : Mem) (fwdIdx : Nat) : Nat :=
  ((Finset.range maxImages).filter fun i => (fwdEntry m fwdIdx i).imageId = imageUnused).card

def dataLeft (p : Packet) (s : St) (c : Cxt) : Nat :=
  if c.isFirst ∨ c.fwUpgradeState.late then 0
  else if c.imageIndex < c.totalImages then bytesLeft p s.imageHdr c + 1
  else freeEntries s.flash c.trialFwdIdx + 1

def statesLeft (c : Cxt) : Nat :=
  match c.fwUpgradeState with
  | .notStart => 10
  | .getTrialInfo => 9
  | .eraseFwd => 8
  | .eraseSecondFs => 7
  | .prepareFs => 6
  | .disconnectServer => 5
  | .prepareConnect => 4
  | .connect => 3
  | .receiveData => 2
  | .processConfigFile => if c.bufLen = 0 then 3 else 1
  | .processImage => if c.drained then 3 else 1
  | .duplicateImages => 2
  | .duplicateFs => 1
  | .finish => 0

def rank (p : Packet) (s : St) (c : Cxt) : Rank :=
  .of (headerLeft c) (imagesLeft c) (dataLeft p s c) (statesLeft c)

section Rank
variable {p : Packet} {s t : St} {c d : Cxt}

theorem rank_lt_header (header : headerLeft d < headerLeft c) : rank p t d < rank p s c :=
  Rank.of_lt.mpr (.inl header)

theorem rank_lt_images (header : headerLeft d = headerLeft c)
    (images : imagesLeft d < imagesLeft c) : rank p t d < rank p s c :=
  Rank.of_lt.mpr (.inr ⟨header, .inl images⟩)

theorem rank_lt_data (header : headerLeft d = headerLeft c) (images : imagesLeft d = imagesLeft c)
    (data : dataLeft p t d < dataLeft p s c) : rank p t d < rank p s c :=
  Rank.of_lt.mpr (.inr ⟨header, .inr ⟨images, .inl data⟩⟩)

theorem rank_lt_states (header : headerLeft d = headerLeft c)
    (images : imagesLeft d = imagesLeft c) (data : dataLeft p t d = dataLeft p s c)
    (states : statesLeft d < statesLeft c) : rank p t d < rank p s c :=
  Rank.of_lt.mpr (.inr ⟨header, .inr ⟨images, .inr ⟨data, states⟩⟩⟩)

theorem dataLeft_first (first : c.isFirst = true) : dataLeft p s c = 0 := if_pos (.inl first)

theorem dataLeft_late (late : c.fwUpgradeState.late = true) : dataLeft p s c = 0 :=
  if_pos (.inr late)

theorem dataLeft_inside (first : c.isFirst = false) (late : c.fwUpgradeState.late = false)
    (inside : c.imageIndex < c.totalImages) :
    dataLeft p s c = bytesLeft p s.imageHdr c + 1 := by
  unfold dataLeft
  rw [if_neg (by simp [first, late]), if_pos inside]

theorem dataLeft_outside (first : c.isFirst = false) (late : c.fwUpgradeState.late = false)
    (outside : c.totalImages ≤ c.imageIndex) :
    dataLeft p s c = freeEntries s.flash c.trialFwdIdx + 1 := by
  unfold dataLeft
  rw [if_neg (by simp [first, late]), if_neg (Nat.not_lt.mpr outside)]

theorem headerLeft_full (first : c.isFirst = false) : headerLeft c = 0 :=
  if_neg (by rw [first]; exact Bool.false_ne_true)

theorem imagesLeft_full (first : c.isFirst = false) :
    imagesLeft c = c.totalImages - c.imageIndex :=
  if_neg (by rw [first]; exact Bool.false_ne_true)

/-- An image has been left. -/
theorem rank_lt_index (first : c.isFirst = false) (first' : d.isFirst = false)
    (total : d.totalImages = c.totalImages) (inside : c.imageIndex < c.totalImages)
    (lt : c.imageIndex < d.imageIndex) : rank p t d < rank p s c := by
  apply rank_lt_images ((headerLeft_full first').trans (headerLeft_full first).symm)
  rw [imagesLeft_full first, imagesLeft_full first', total]
  exact Nat.sub_lt_sub_left inside lt

/-- No image is left. -/
theorem rank_lt_outside (first : c.isFirst = false) (first' : d.isFirst = false)
    (total : d.totalImages = c.totalImages) (outside : c.totalImages ≤ c.imageIndex)
    (outside' : c.totalImages ≤ d.imageIndex) (data : dataLeft p t d < dataLeft p s c) :
    rank p t d < rank p s c := by
  apply rank_lt_data ((headerLeft_full first').trans (headerLeft_full first).symm) _ data
  rw [imagesLeft_full first, imagesLeft_full first', total, Nat.sub_eq_zero_of_le outside,
    Nat.sub_eq_zero_of_le outside']

end Rank

/-! ## Entries -/

/-- A new entry for FS1 takes a free one. -/
theorem Entered.fills {e : Env} {s t : St} {client : Client} (h : Entered e s client .done t)
    (id : client.imgId = fs1ImgId) :
    freeEntries t.flash client.fwdIdx < freeEntries s.flash client.fwdIdx := by
  obtain ⟨r, reads, -, ran⟩ := h.ran
  have flash : t.flash = Nor.program s.flash (entryAddr client.fwdIdx client.imgIdx)
      (entryBytes client.imgId client.imgVersion client.imgStart client.imgSize) := by
    rw [ran.eq, ← reads.flash]
    rfl
  have blank : ∀ i, (fwdEntry t.flash client.fwdIdx i).imageId = imageUnused →
      ∀ k < 4, t.flash (entryAddr client.fwdIdx i + k) = 0xFF := by
    intro i free k lt
    apply @eq_ff_of_leNat (load t.flash (entryAddr client.fwdIdx i) 4)
    · rw [length_load]
      exact congrArg (· + 1) free
    · exact List.mem_map.mpr ⟨k, List.mem_range.mpr lt, rfl⟩
  obtain ⟨lt, found⟩ := entryOf_some h.slot
  apply Finset.card_lt_card
  constructor
  · intro i mem
    obtain ⟨inside, free⟩ := Finset.mem_filter.mp mem
    refine Finset.mem_filter.mpr ⟨inside, ?_⟩
    have same : load s.flash (entryAddr client.fwdIdx i) 4 =
        load t.flash (entryAddr client.fwdIdx i) 4 := by
      apply load_congr
      intro k lt
      have ff := blank i free k lt
      rw [ff]
      rw [flash] at ff
      exact Nor.program_ff ff
    exact (congrArg leNat same).trans free
  · intro all
    have mem := all (Finset.mem_filter.mpr ⟨Finset.mem_range.mpr lt, found⟩)
    have ff := blank client.imgIdx (Finset.mem_filter.mp mem).2 0 (by decide)
    have written : entryAddr client.fwdIdx client.imgIdx < entryAddr client.fwdIdx client.imgIdx +
        (entryBytes client.imgId client.imgVersion client.imgStart client.imgSize).length :=
      Nat.lt_add_of_pos_right (by simp [entryBytes])
    rw [flash, Nat.add_zero, Nor.program_inside _ (Nat.le_refl _) written, id, Nat.sub_self] at ff
    have five : (s.flash (entryAddr client.fwdIdx client.imgIdx) &&& 5).toNat ≤ 5 := by
      rw [UInt8.toNat_and]
      exact Nat.and_le_right
    change s.flash (entryAddr client.fwdIdx client.imgIdx) &&& 5 = 0xFF at ff
    rw [ff] at five
    exact absurd five (by decide)

end Qapp.Fw
