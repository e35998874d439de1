import Mathlib.Algebra.Order.BigOperators.Group.Finset
import Mathlib.Data.List.Find
import Qapp.Fw.Effects

/-!
# The areas of a session

Where the images of a session belong, and what the header has to meet for all of
them to fit.
-/

namespace Qapp.Fw
open ByteMem Traced
open Relation (ReflTransGen)

variable {e : Env} {retry : Bool}

/-! ## The trial region -/

/-- Images that are downloaded into the region. -/
def downloads (flags : Nat → Bool) (i id : Nat) : Bool :=
  flags i && id != fs1ImgId && id != sblImgId

/-- Images that are copied into it. -/
def copies (flags : Nat → Bool) (i id : Nat) : Bool := !flags i && !isSpecial id

def placed (flags : Nat → Bool) (i id : Nat) : Bool := downloads flags i id || copies flags i id

/-- What image `i` takes up of the region, in whole blocks. -/
def sizeAt (p : Nat → Nat → Bool) (imgs : List ImageHdr) (i : Nat) : Nat :=
  match imgs[i]? with
  | some img => if p i img.imageId then blockCount img.diskSize * blockSize else 0
  | none => 0

/-- What the images before `n` take up. -/
def space (p : Nat → Nat → Bool) (imgs : List ImageHdr) (n : Nat) : Nat :=
  ∑ i ∈ Finset.range n, sizeAt p imgs i

section space
variable {p : Nat → Nat → Bool} {imgs : List ImageHdr} {i j n : Nat} {img : ImageHdr}
  {flags : Nat → Bool}

theorem space_succ (p : Nat → Nat → Bool) (imgs : List ImageHdr) (n : Nat) :
    space p imgs (n + 1) = space p imgs n + sizeAt p imgs n :=
  Finset.sum_range_succ ..

theorem sizeAt_pos (h : imgs[i]? = some img) (hp : p i img.imageId = true) :
    sizeAt p imgs i = blockCount img.diskSize * blockSize := by
  unfold sizeAt
  simp only [h, hp, if_true]

theorem sizeAt_neg (h : imgs[i]? = some img) (hp : p i img.imageId = false) :
    sizeAt p imgs i = 0 := by
  unfold sizeAt
  simp only [h, hp, Bool.false_eq_true, if_false]

theorem sizeAt_end (h : imgs.length ≤ i) : sizeAt p imgs i = 0 := by
  unfold sizeAt
  rw [List.getElem?_eq_none h]

theorem space_mono (h : i ≤ j) : space p imgs i ≤ space p imgs j :=
  Finset.sum_le_sum_of_subset (Finset.range_subset_range.mpr h)

/-- Behind the last image nothing is added. -/
theorem space_le (p : Nat → Nat → Bool) (imgs : List ImageHdr) (n : Nat) :
    space p imgs n ≤ space p imgs imgs.length := by
  induction n with
  | zero => exact Nat.zero_le _
  | succ n ih =>
    rcases Nat.lt_or_ge n imgs.length with lt | le
    · exact space_mono lt
    · rw [space_succ, sizeAt_end le, Nat.add_zero]
      exact ih

theorem sizeAt_placed (flags : Nat → Bool) (imgs : List ImageHdr) (i : Nat) :
    sizeAt (placed flags) imgs i =
      sizeAt (downloads flags) imgs i + sizeAt (copies flags) imgs i := by
  unfold sizeAt
  cases imgs[i]? with
  | none => rfl
  | some img =>
    unfold placed downloads copies
    cases flags i <;> simp

/-- Both kinds of images together. -/
theorem space_both (flags : Nat → Bool) (imgs : List ImageHdr) (i j : Nat) :
    space (downloads flags) imgs i + space (copies flags) imgs j ≤
      space (placed flags) imgs imgs.length := by
  have all : space (placed flags) imgs imgs.length =
      space (downloads flags) imgs imgs.length + space (copies flags) imgs imgs.length := by
    unfold space
    simp only [sizeAt_placed, Finset.sum_add_distrib]
  rw [all]
  exact Nat.add_le_add (space_le ..) (space_le ..)

/-- From one image to the next that is downloaded. -/
theorem space_skip (le : i ≤ j) (skipped : ∀ k, i ≤ k → k < j → flags k = false) :
    space (downloads flags) imgs j = space (downloads flags) imgs i := by
  induction j, le using Nat.le_induction with
  | base => rfl
  | succ j le ih =>
    have none : sizeAt (downloads flags) imgs j = 0 := by
      unfold sizeAt
      cases imgs[j]? with
      | none => rfl
      | some img => simp [downloads, skipped j le (Nat.lt_succ_self j)]
    rw [space_succ, none, Nat.add_zero]
    exact ih fun k lo hi => skipped k lo (by omega)

end space

/-- A header of which all images fit: those of the region together, exactly and in whole
blocks, and each SBL image by itself; no size overflows when it is aligned. -/
structure Fits (size : Nat) (raw : List ImageHdr) (flags : Nat → Bool) : Prop where
  region : space (placed flags) raw raw.length ≤ size
  fs1 : ∀ r ∈ raw, r.imageId = fs1ImgId → blockCount r.diskSize * blockSize < 2 ^ 32
  sbl : ∀ i r, raw[i]? = some r → flags i = true → r.imageId = sblImgId → r.diskSize ≤ sblMemSize

/-! ## What the entry checks leave -/

def ImageHdr.aligned (h : ImageHdr) : ImageHdr :=
  if h.imageId = sblImgId then h else { h with diskSize := alignDiskSize h.diskSize }

theorem aligned_imageId (h : ImageHdr) : h.aligned.imageId = h.imageId := by
  unfold ImageHdr.aligned
  split <;> rfl

theorem aligned_imageLength (h : ImageHdr) : h.aligned.imageLength = h.imageLength := by
  unfold ImageHdr.aligned
  split <;> rfl

theorem checkEntry_aligned {h h' : ImageHdr} {a a' : EntrySums}
    (checked : checkEntry h a = some (h', a')) : h' = h.aligned ∧ h.imageLength ≤ h.diskSize := by
  unfold checkEntry at checked
  split at checked
  · cases checked
  · rename_i good
    have le : h.imageLength ≤ h.diskSize := by
      by_contra lt
      exact good (.inr (.inr (.inr (.inr (Nat.not_le.mp lt)))))
    unfold ImageHdr.aligned
    by_cases sbl : h.imageId = sblImgId
    · rw [if_pos sbl] at checked ⊢
      cases checked
      exact ⟨rfl, le⟩
    · rw [if_neg sbl] at checked ⊢
      cases checked
      exact ⟨rfl, le⟩

/-- An entry that is left was received, and has been aligned. -/
theorem checkEntries_get {raw hdrs : List ImageHdr} {a b : EntrySums}
    (checked : checkEntries raw a = (hdrs, some b)) {i : Nat} {img : ImageHdr}
    (h : hdrs[i]? = some img) :
    ∃ r, raw[i]? = some r ∧ img = r.aligned ∧ r.imageLength ≤ r.diskSize := by
  induction raw generalizing hdrs a i with
  | nil =>
    cases checked
    cases h
  | cons r raw ih =>
    unfold checkEntries at checked
    cases one : checkEntry r a with
    | none =>
      rw [one] at checked
      cases checked
    | some p =>
      obtain ⟨r', a'⟩ := p
      rw [one] at checked
      obtain ⟨rfl, rest⟩ := Prod.mk.inj checked
      cases i with
      | zero =>
        cases h
        obtain ⟨eq, le⟩ := checkEntry_aligned one
        exact ⟨r, rfl, eq, le⟩
      | succ i => exact ih (Prod.ext rfl rest) h

theorem alignDiskSize_eq {d : Nat} (lt : blockCount d * blockSize < 2 ^ 32) :
    alignDiskSize d = blockCount d * blockSize := by
  unfold alignDiskSize blockCount at *
  unfold blockSize at *
  split <;> omega

theorem le_blockCount (d : Nat) : d ≤ blockCount d * blockSize := by
  unfold blockCount blockSize
  omega

/-! ## The running firmware stays -/

/-- The descriptor table in RRAM. -/
def InFdt (x : Nat) : Prop := fdtStart ≤ x ∧ x < fdtStart + 32 + fdtMaxEntry * 32

section Fdt
variable {m m' : Mem}

theorem word_fdt (same : ∀ x, InFdt x → m' x = m x) {a : Nat} (lo : fdtStart ≤ a)
    (hi : a + 4 ≤ fdtStart + 32 + fdtMaxEntry * 32) : word m' a = word m a :=
  word_congr fun x hx lt => same x ⟨by omega, by omega⟩

theorem fdtValid_congr (same : ∀ x, InFdt x → m' x = m x) : fdtValid m' = fdtValid m := by
  unfold fdtValid numFde
  rw [word_fdt same (by omega) (by decide), word_fdt same (by omega) (by decide)]

theorem numFde_congr (same : ∀ x, InFdt x → m' x = m x) : numFde m' = numFde m :=
  word_fdt same (by omega) (by decide)

/-- The fields of the entries of a valid table. -/
theorem fde_congr (same : ∀ x, InFdt x → m' x = m x) (valid : fdtValid m = true) {i k : Nat}
    (lt : i < numFde m) (hk : k + 4 ≤ 32) : word m' (fdeAddr i + k) = word m (fdeAddr i + k) := by
  have le : numFde m ≤ fdtMaxEntry := by
    unfold fdtValid at valid
    simp only [Bool.and_eq_true, decide_eq_true_eq] at valid
    exact valid.2
  apply word_fdt same <;> · unfold fdeAddr; omega

theorem findFde_congr (same : ∀ x, InFdt x → m' x = m x) {p q : Nat → Bool}
    (eq : ∀ i, i < numFde m → q i = p i) : findFde m' q = findFde m p := by
  unfold findFde
  rw [numFde_congr same]
  apply List.find?_congr
  intro i hi
  exact eq i (List.mem_range.mp hi)

theorem activeFwd_congr (same : ∀ x, InFdt x → m' x = m x) : activeFwd m' = activeFwd m := by
  unfold activeFwd getActiveFwd
  rw [fdtValid_congr same]
  cases valid : fdtValid m with
  | false => rfl
  | true =>
    have found : findFde m' (fun i => fdeId m' i == fdeIdApp) =
        findFde m (fun i => fdeId m i == fdeIdApp) := by
      apply findFde_congr same
      intro i lt
      have := fde_congr same valid lt (k := 0) (by decide)
      unfold fdeId
      rw [Nat.add_zero] at this
      rw [this]
    simp only [if_true, found]
    cases h : findFde m (fun i => fdeId m i == fdeIdApp) with
    | none => rfl
    | some i =>
      have lt : i < numFde m := List.mem_range.mp (List.mem_of_find?_eq_some h)
      have := fde_congr same valid lt (k := 12) (by decide)
      unfold fdeImgAddr
      simp only [this]

theorem selectSblTrialFde_congr (same : ∀ x, InFdt x → m' x = m x) :
    selectSblTrialFde m' = selectSblTrialFde m := by
  unfold selectSblTrialFde
  rw [fdtValid_congr same]
  cases valid : fdtValid m with
  | false => rfl
  | true =>
    have found : findFde m' (fun i => fdeId m' i == fdeIdSbl && fdeRank m' i == fdeRankAged) =
        findFde m (fun i => fdeId m i == fdeIdSbl && fdeRank m i == fdeRankAged) := by
      apply findFde_congr same
      intro i lt
      have id := fde_congr same valid lt (k := 0) (by decide)
      have rank := fde_congr same valid lt (k := 4) (by decide)
      unfold fdeId fdeRank
      rw [Nat.add_zero] at id
      rw [id, rank]
    simp only [if_true, found]
    cases h : findFde m (fun i => fdeId m i == fdeIdSbl && fdeRank m i == fdeRankAged) with
    | none => rfl
    | some i =>
      have lt : i < numFde m := List.mem_range.mp (List.mem_of_find?_eq_some h)
      have := fde_congr same valid lt (k := 12) (by decide)
      unfold fdeImgAddr
      simp only [Option.map_some, this]

end Fdt

theorem fwdEntry_congr {m m' : Mem} {f i : Nat} (same : ∀ x, InFwd f x → m' x = m x)
    (lt : i < maxImages) : fwdEntry m' f i = fwdEntry m f i := by
  have fields : ∀ k, k ≤ 12 → word m' (entryAddr f i + k) = word m (entryAddr f i + k) := by
    intro k hk
    apply word_congr
    intro x lo hi
    apply same
    unfold InFwd
    unfold entryAddr at lo hi
    unfold blockSize maxImages at *
    omega
  unfold fwdEntry
  rw [fields 4 (by omega), fields 8 (by omega), fields 12 (by omega)]
  have := fields 0 (by omega)
  rw [Nat.add_zero] at this
  rw [this]

theorem entryOf_congr {m m' : Mem} {f id : Nat} (same : ∀ x, InFwd f x → m' x = m x) :
    entryOf m' f id = entryOf m f id := by
  unfold entryOf
  apply List.find?_congr
  intro i hi
  rw [fwdEntry_congr same (List.mem_range.mp hi)]

theorem Lookup.congr {m m' : Mem} {f id : Nat} {c : Client} (same : ∀ x, InFwd f x → m' x = m x)
    (h : Lookup m' f id c) : Lookup m f id c := by
  obtain ⟨lt, i, found, eq⟩ := h
  rw [entryOf_congr same] at found
  refine ⟨lt, i, found, ?_⟩
  rw [eq, fwdEntry_congr same (entryOf_some found).1]

end Qapp.Fw
