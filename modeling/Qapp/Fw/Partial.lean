import Qapp.Fw.Collect
import Qapp.Fw.Receive

/-!
# Receiving the images of a partial upgrade

A packet of a partial upgrade is taken for data of one image: what is written and hashed is
the part of the stream that it carries.
-/

namespace Qapp.Fw
open ByteMem Traced

variable {e : Env} {S : List UInt8} {pos n taken : Nat} {x : Cxt} {α β : Type}

/-! ## Standing at a place of the stream -/

/-- Of the `n` bytes from `pos` on some have been used, as they are to be. -/
def Partly (S : List UInt8) (pos n : Nat) (l : List Event) : Prop :=
  ∃ taken, pos ≤ taken ∧ taken ≤ pos + n ∧ Exact S taken l

theorem Partly.apart {l k : List Event} (h : Partly S pos n l) (apart : ∀ w ∈ k, w.apart = true) :
    Partly S pos n (l ++ k) := by
  obtain ⟨taken, lo, hi, exact_⟩ := h
  exact ⟨taken, lo, hi, exact_.apart apart⟩

/-- What is part of the progress. -/
theorem eq_of_progress {c : Cxt} (same : c.progress = x.progress) (f : Cxt → β)
    (own : ∀ c, f c.progress = f c) : f c = f x := by
  rw [← own c, same, own x]

theorem Stands.exact {s : St} {c : Cxt} {l : List Event} (h : Stands S taken x s c l) :
    Exact S taken l := h.ledger.exact

theorem Stands.apart {s t : St} {c d : Cxt} {l k : List Event} (h : Stands S taken x s c l)
    (progress : d.progress = c.progress) (state : d.fwUpgradeState = c.fwUpgradeState)
    (hdrs : t.imageHdr = s.imageHdr) (apart : ∀ w ∈ k, w.apart = true) :
    Stands S taken x t d (l ++ k) where
  progress := progress.trans h.progress
  state := state.trans h.state
  hdrs := hdrs.trans h.hdrs
  ledger := h.ledger.apart apart
  verified := h.verified.append k

/-- A session that stands at the context `x`, and a trace that is as it is to be. -/
abbrev Stand (S : List UInt8) (pos n taken : Nat) (x : Cxt) : St → List Event → Prop :=
  Stays (Partly S pos n) (Stands S taken x)

theorem Stand.congr {c : Cxt} {s : St} {l : List Event} (h : Stand S pos n taken c s l)
    (same : c.progress = x.progress) (state : c.fwUpgradeState = x.fwUpgradeState) :
    Stand S pos n taken x s l := by
  have flags : c.downloadFlag = x.downloadFlag := eq_of_progress same _ fun _ => rfl
  have index : c.imageIndex = x.imageIndex := eq_of_progress same _ fun _ => rfl
  apply h.imp
  intro d h
  refine ⟨h.progress.trans same, h.state.trans state, h.hdrs, ?_, ?_⟩
  · rw [← flags]
    exact h.ledger
  · rw [← flags, ← index]
    exact h.verified

section Stand
variable {m : M α} {f : α → M β} {Q : Except Status β → St → List Event → Prop}

theorem stand_steady (h : Steady m) :
    Triple (Stand S pos n taken x) m fun _ => Stand S pos n taken x := by
  apply stays_within h rfl
  · exact fun l k plain partly => partly.apart fun w mem => Event.apart_of_plain (plain w mem)
  · intro s t c d l k same state plain stands
    obtain ⟨hdrs, progress⟩ := Prod.ext_iff.mp same
    exact stands.apart progress (state.resolve_right Bool.false_ne_true) hdrs
      fun w mem => Event.apart_of_plain (plain w mem)

theorem stand_emit {w : Event} (apart : w.apart = true) :
    Triple (Stand S pos n taken x) (Act.emit w : M Unit) fun _ => Stand S pos n taken x := by
  have one : ∀ v ∈ [w], v.apart = true := fun v mem => List.mem_singleton.mp mem ▸ apart
  apply Triple.of
  rintro s l ⟨⟨c, hc, stands⟩, partly⟩
  exact ⟨⟨c, hc, stands.apart rfl rfl rfl one⟩, partly.apart one⟩

/-- An update of the progress or the state, after which they are those of `y`. -/
theorem stand_updateCxt {g : Cxt → Cxt} {y : Cxt}
    (local' : ∀ c, (g c).progress = (g c.progress).progress)
    (becomes : (g x).progress = y.progress)
    (state : ∀ c, c.fwUpgradeState = x.fwUpgradeState → (g c).fwUpgradeState = y.fwUpgradeState)
    (flags : y.downloadFlag = x.downloadFlag)
    (verified : ∀ l, Digested x.downloadFlag S x.imageIndex l →
      Digested x.downloadFlag S y.imageIndex l) :
    Triple (Stand S pos n taken x) (updateCxt g) fun _ => Stand S pos n taken y := by
  apply stays_updateCxt
  intro s c l h
  refine ⟨?_, state c h.state, h.hdrs, ?_, ?_⟩
  · rw [local', h.progress, ← local', becomes]
  · rw [flags]
    exact h.ledger
  · rw [flags]
    exact verified l h.verified

/-- The context is read; from there on it is known. -/
theorem stand_getCxt {f : Cxt → M β}
    (rest : ∀ c, c.progress = x.progress → c.fwUpgradeState = x.fwUpgradeState →
      Triple (Stand S pos n taken c) (f c) Q) :
    Triple (Stand S pos n taken x) (getCxt >>= f) Q := by
  apply stays_getCxt
  rintro c s l ⟨hc, h, partly⟩
  have here : Stand S pos n taken x s l := ⟨⟨c, hc, h⟩, partly⟩
  obtain ⟨⟨d, hd, stands⟩, -⟩ := here.congr h.progress.symm h.state.symm
  cases hc.symm.trans hd
  exact rest c h.progress h.state s l ⟨⟨c, hc, stands⟩, partly⟩

theorem stand_bind {y : Cxt} {taken' : Nat}
    (first : Triple (Stand S pos n taken x) m fun _ => Stand S pos n taken' y)
    (stop : ∀ err s l, Partly S pos n l → Q (.error err) s l)
    (rest : ∀ a, Triple (Stand S pos n taken' y) (f a) Q) :
    Triple (Stand S pos n taken x) (m >>= f) Q :=
  stays_bind first stop rest

end Stand

/-! ## An image -/

/-- An image is being received. -/
structure Amid (S : List UInt8) (taken : Nat) (c : Cxt) : Prop where
  index : c.imageIndex < c.totalImages
  flag : c.downloadFlag c.imageIndex = true
  length : c.imageWrtLength = imageLen S c.imageIndex
  used : taken = imageStart S c.downloadFlag c.imageIndex + c.imageWrtCount
  fits : c.imageWrtCount ≤ c.imageWrtLength

/-- An image is being received, and the digest is that of its part. -/
structure Midst (S : List UInt8) (taken : Nat) (c : Cxt) : Prop
    extends Imaging S c, Amid S taken c where
  digest : c.digest.bytes = imagePart S c.downloadFlag taken c.imageIndex

theorem midst_progress : Midst S taken x.progress ↔ Midst S taken x :=
  ⟨fun h => ⟨⟨h.first, h.format, h.total, h.flags⟩,
      ⟨h.index, h.flag, h.length, h.used, h.fits⟩, h.digest⟩,
    fun h => ⟨⟨h.first, h.format, h.total, h.flags⟩,
      ⟨h.index, h.flag, h.length, h.used, h.fits⟩, h.digest⟩⟩

theorem Imaging.congr {c : Cxt} (same : c.progress = x.progress) (h : Imaging S x) :
    Imaging S c where
  first := (eq_of_progress same _ fun _ => rfl).trans h.first
  format := (eq_of_progress same _ fun _ => rfl).trans h.format
  total := (eq_of_progress same _ fun _ => rfl).trans h.total
  flags full i := (eq_of_progress same (fun c => c.downloadFlag i) fun _ => rfl).trans
    (h.flags full i)

theorem Paused.congr {c : Cxt} (same : c.progress = x.progress) (h : Paused S taken x) :
    Paused S taken c where
  toImaging := h.toImaging.congr same
  idle := (eq_of_progress same _ fun _ => rfl).trans h.idle
  used := h.used.trans (eq_of_progress same (fun c => imageStart S c.downloadFlag c.imageIndex)
    fun _ => rfl).symm

theorem Midst.congr {c : Cxt} (same : c.progress = x.progress) (h : Midst S taken x) :
    Midst S taken c :=
  midst_progress.mp (same ▸ midst_progress.mpr h)

/-- The partition of an image is created; its length is that of the header. -/
theorem startImage_stands (e : Env) (img : ImageHdr) :
    Triple (Stand S pos n taken x) (startImage e img) fun _ =>
      Stand S pos n taken { x with imageWrtCount := 0, imageWrtLength := img.imageLength } := by
  have begin_ : Triple (Stand S pos n taken x)
      (updateCxt fun c => { c with imageWrtCount := 0, imageWrtLength := img.imageLength })
      fun _ => Stand S pos n taken { x with
        imageWrtCount := 0, imageWrtLength := img.imageLength } :=
    stand_updateCxt (fun _ => rfl) rfl (fun _ state => state) rfl fun _ h => h
  have create : Steady (do
      if img.imageId = fs1ImgId then createFs1 e img
      else
        let c ← getCxt
        let startAddr := if img.imageId = sblImgId then c.trialSblStart else c.trialMemStart
        (newPartition e (some c.imageIndex) img.imageId img.version startAddr
          img.diskSize).orFail .flashCreatePartition
        (erasePartition e (some c.imageIndex) (← getCxt).partitionHdl 0 blockSize).orFail
          .flashErasePartition) :=
    .ite (createFs1_steady e img) <| .bind getCxt_steady fun _ =>
      .bind (.orFail (newPartition_steady ..) _) fun _ => .bind getCxt_steady fun _ =>
        .orFail (erasePartition_steady ..) _
  exact .andThen begin_ (fun _ _ _ h => h) fun _ => stand_steady create

/-- The event of a write to image `i`. -/
theorem chunk_of_write {i j : Nat} {client : Client} {offset : Nat} {bytes : List UInt8}
    {out : Outcome} :
    (Event.op (.image i client offset) (client.writeOp offset bytes) out).chunk j =
      if i = j then some (offset, bytes) else none := by
  unfold Client.writeOp
  split <;> rfl

/-- What is left behind by a write of `k` bytes that may fail. -/
def Stored (S : List UInt8) (pos n taken k : Nat) (x : Cxt) (r : Except Status Unit) (s : St)
    (l : List Event) : Prop :=
  match r with
  | .ok _ => Stand S pos n (taken + k) x s l
  | .error _ => Partly S pos n l

theorem writePartition_stands (e : Env) (hdl : Option Nat) (addr : Nat) {k : Nat}
    (lo : pos ≤ taken) (hi : taken + k ≤ pos + n) (amid : Amid S taken x)
    (fits : x.imageWrtCount + k ≤ x.imageWrtLength) (inside : taken + k ≤ S.length) :
    Triple (Stand S pos n taken x) (writePartition e (some x.imageIndex) hdl x.imageWrtCount
      ((S.drop taken).take k) addr) (Stored S pos n taken k x) := by
  apply Triple.of
  rintro s l ⟨⟨c, hc, h⟩, partly⟩
  cases hdl with
  | none =>
    change Partly S pos n (l ++ [])
    rw [List.append_nil]
    exact partly
  | some hdl =>
    rcases writePartition_cases e (some x.imageIndex) hdl x.imageWrtCount ((S.drop taken).take k)
      addr s with ⟨err, run, -⟩ | ⟨t, run, -⟩ | ⟨out, r, t, l', run, -, around, quiet, -, -, -, ran⟩
    · rw [run, List.append_nil]
      exact partly
    · rw [run]
      exact partly.apart fun w mem => List.mem_singleton.mp mem ▸ rfl
    · rw [run]
      have used := amid.used
      have length := amid.length
      have start : imageStart S x.downloadFlag x.imageIndex ≤ taken := by omega
      have end_ : taken + k ≤
          imageStart S x.downloadFlag x.imageIndex + imageLen S x.imageIndex := by omega
      have offset : x.imageWrtCount = taken - imageStart S x.downloadFlag x.imageIndex := by omega
      have write {l : List Event} (ledger : Ledger S x.downloadFlag taken l) :=
        ledger.write (w := .op (issuer (some x.imageIndex) (s.handles hdl) x.imageWrtCount)
          ((s.handles hdl).writeOp x.imageWrtCount ((S.drop taken).take k)) out) amid.flag start
          end_ inside (fun j => by rw [← offset]; exact chunk_of_write) ⟨_, _, _, rfl⟩
      have ledger : Ledger S x.downloadFlag (taken + k) (l ++ l') := by
        obtain rfl | rfl := around
        · exact write h.ledger
        · have alloc : ∀ w ∈ [Event.note (.alloc .aligned)], w.apart = true := by simp [Event.apart]
          have free : ∀ w ∈ [Event.note (.free .aligned)], w.apart = true := by simp [Event.apart]
          have := (write (h.ledger.apart alloc)).apart free
          simpa only [List.append_assoc, List.cons_append, List.nil_append] using this
      have partly' : Partly S pos n (l ++ l') := ⟨taken + k, by omega, hi, ledger.exact⟩
      cases out with
      | done =>
        have cxt : t.cxt = some c := (ran.cxt.trans quiet.cxt).trans hc
        have hdrs : t.imageHdr = s.imageHdr := ran.imageHdr.trans quiet.imageHdr
        exact ⟨⟨c, cxt, h.progress, h.state, hdrs.trans h.hdrs, ledger, h.verified.append _⟩,
          partly'⟩
      | failed | rejected => exact partly'

/-- What is left behind by what the packet has of the current image. -/
def Taken (S : List UInt8) (pos n taken : Nat) (x : Cxt) (r : Except Status Unit) (s : St)
    (l : List Event) : Prop :=
  match r with
  | .ok _ => x.imageWrtCount + x.writeLen ≤ x.imageWrtLength ∧
      Stand S pos n (taken + x.writeLen) (x.wrote ((S.drop taken).take x.writeLen)) s l
  | .error _ => Partly S pos n l

theorem Cxt.writeLen_le (fits : ¬(x.format = formatPartial ∧
    x.imageWrtLength - x.imageWrtCount < x.bufLen)) :
    x.writeLen ≤ x.imageWrtLength - x.imageWrtCount := by
  unfold writeLen
  split
  · rename_i format
    exact Nat.not_lt.mp fun lt => fits ⟨format, lt⟩
  · exact Nat.min_le_right _ _

theorem Cxt.source_writeLen_le (within : x.source ≤ x.bufLen) :
    x.source + x.writeLen ≤ x.bufLen := by
  unfold writeLen
  split
  · rename_i format
    simp only [source, if_pos format, Nat.zero_add, Nat.le_refl]
  · omega

theorem writeImageData_stands (e : Env) {p : Packet} (carries : Carries S pos p)
    (midst : Midst S taken x) (bufLen : x.bufLen = p.len) (placed : taken = pos + x.source)
    (within : x.source ≤ p.len) :
    Triple (Stand S pos p.len taken x) (writeImageData e p) (Taken S pos p.len taken x) := by
  have stop : ∀ err s l, Partly S pos p.len l → Taken S pos p.len taken x (.error err) s l :=
    fun _ _ _ h => h
  rw [writeImageData_eq]
  apply stand_getCxt
  intro c same state
  have source : c.source = x.source := eq_of_progress same Cxt.source fun _ => rfl
  have writeLen : c.writeLen = x.writeLen := eq_of_progress same Cxt.writeLen fun _ => rfl
  replace bufLen : c.bufLen = p.len := (eq_of_progress same _ fun _ => rfl).trans bufLen
  replace midst := midst.congr same
  rw [← source] at placed within
  have ends : c.source + c.writeLen ≤ p.len := by
    rw [← bufLen] at within ⊢
    exact Cxt.source_writeLen_le within
  have bytes : load p.data c.source c.writeLen = (S.drop taken).take c.writeLen := by
    rw [placed]
    exact carries.bytes ends
  have length : ((S.drop taken).take c.writeLen).length = c.writeLen := by
    rw [← bytes, length_load]
  have rewind : Triple (Stand S pos p.len taken c)
      (Act.when (c.format = formatPartial) (updateCxt fun c => { c with bufOffset := 0 }))
      fun _ => Stand S pos p.len taken { c with bufOffset := c.source } := by
    unfold Cxt.source
    by_cases format : c.format = formatPartial
    · simp only [Act.when_pos format, if_pos format]
      exact stand_updateCxt (fun _ => rfl) rfl (fun _ h => h) rfl fun _ h => h
    · simp only [Act.when_neg format, if_neg format]
      exact .pure () fun s l h => h
  rw [bytes]
  refine stand_bind rewind stop fun _ => .ite (fun _ => stays_fail stop) fun fits => ?_
  have amid : Amid S taken (c.taken ((S.drop taken).take c.writeLen)) :=
    ⟨midst.index, midst.flag, midst.length, midst.used, midst.fits⟩
  have room : c.imageWrtCount + c.writeLen ≤ c.imageWrtLength := by
    have := midst.fits
    have := Cxt.writeLen_le fits
    omega
  have inside := carries.inside
  have digest : Triple (Stand S pos p.len taken { c with bufOffset := c.source })
      (digestUpdate ((S.drop taken).take c.writeLen))
      fun _ => Stand S pos p.len taken (c.taken ((S.drop taken).take c.writeLen)) :=
    stand_updateCxt (fun _ => rfl) rfl (fun _ h => h) rfl fun _ h => h
  have write : Triple (Stand S pos p.len taken (c.taken ((S.drop taken).take c.writeLen)))
      (writePartition e (some c.imageIndex) c.partitionHdl c.imageWrtCount
        ((S.drop taken).take c.writeLen) (p.addr + c.source))
      (Stored S pos p.len taken c.writeLen (c.taken ((S.drop taken).take c.writeLen))) :=
    writePartition_stands e _ _ (by omega) (by omega) amid room (by omega)
  refine stand_bind (stand_emit rfl) stop fun _ => stand_bind digest stop fun _ =>
    stand_bind (stand_steady (.orFail (eraseAhead_steady ..) _)) stop fun _ => .bind
      (M := fun _ => Stand S pos p.len (taken + c.writeLen)
        (c.taken ((S.drop taken).take c.writeLen)))
      (.orFail (write.post fun r s l h => ?_)) fun _ => ?_
  · cases r with
    | ok => exact h
    | error => exact h
  · have done : Triple (Stand S pos p.len (taken + c.writeLen)
          (c.taken ((S.drop taken).take c.writeLen)))
        (updateCxt fun x => { x with
          bufOffset := c.source + c.writeLen, imageWrtCount := x.imageWrtCount + c.writeLen })
        fun _ => Stand S pos p.len (taken + c.writeLen)
          (c.wrote ((S.drop taken).take c.writeLen)) :=
      stand_updateCxt (fun _ => rfl) (by rw [Cxt.wrote, length]; rfl) (fun _ h => h) rfl
        fun _ h => h
    refine done.post fun r s l h => ?_
    cases r with
    | ok =>
      rw [writeLen] at h room
      have count : c.imageWrtCount = x.imageWrtCount := eq_of_progress same _ fun _ => rfl
      have whole : c.imageWrtLength = x.imageWrtLength := eq_of_progress same _ fun _ => rfl
      rw [count, whole] at room
      exact ⟨room, h.congr (eq_of_progress same
        (fun c => (c.wrote ((S.drop taken).take x.writeLen)).progress) fun _ => rfl) state⟩
    | error => exact h.2

/-! ## After a packet -/

/-- A session that stands where `φ` holds of its context. -/
abbrev Rests (S : List UInt8) (pos n taken : Nat) (φ : Cxt → Prop) : St → List Event → Prop :=
  Stays (Partly S pos n) fun s c l => Stands S taken c s c l ∧ φ c

theorem Stand.rests {φ : Cxt → Prop} {s : St} {l : List Event} (h : Stand S pos n taken x s l)
    (holds : ∀ c, c.progress = x.progress → c.fwUpgradeState = x.fwUpgradeState → φ c) :
    Rests S pos n taken φ s l := by
  obtain ⟨⟨c, hc, stands⟩, partly⟩ := h
  have here : Stand S pos n taken x s l := ⟨⟨c, hc, stands⟩, partly⟩
  obtain ⟨⟨d, hd, self⟩, -⟩ := here.congr stands.progress.symm stands.state.symm
  cases hc.symm.trans hd
  exact ⟨⟨c, hc, self, holds c stands.progress stands.state⟩, partly⟩

theorem rests_elim {φ : Cxt → Prop} {m : M α} {Q : Except Status α → St → List Event → Prop}
    (h : ∀ x, φ x → Triple (Stand S pos n taken x) m Q) :
    Triple (Rests S pos n taken φ) m Q := by
  rintro s l ⟨⟨c, hc, stands, holds⟩, partly⟩
  exact h c holds s l ⟨⟨c, hc, stands⟩, partly⟩

/-- Verification hashes the image and its padding. -/
theorem verifyImageHash_stands (e : Env) {img : ImageHdr} (lo : pos ≤ taken)
    (hi : taken ≤ pos + n) (amid : Amid S taken x) (format : x.format = hdrFormat S)
    (digest : x.digest.bytes = imagePart S x.downloadFlag taken x.imageIndex)
    (hdr : (streamHdrs S)[x.imageIndex]? = some img) (whole : x.imageWrtLength ≤ x.imageWrtCount) :
    Triple (Stand S pos n taken x) (verifyImageHash e img) fun r s l => match r with
      | .ok _ => Stays (Partly S pos n) (fun s c l => Stands S taken (x.verified img) s c l ∧
          Digested x.downloadFlag S (x.imageIndex + 1) l) s l
      | .error _ => Partly S pos n l := by
  apply Triple.of
  rintro s l ⟨⟨c, hc, h⟩, partly⟩
  have index : c.imageIndex = x.imageIndex := eq_of_progress h.progress _ fun _ => rfl
  have padded : (c.digest.update (hashPadding c.format img)).bytes =
      imagePart S x.downloadFlag taken x.imageIndex ++ imagePadding S x.imageIndex := by
    have bytes : c.digest = x.digest := eq_of_progress h.progress _ fun _ => rfl
    have same : c.format = x.format := eq_of_progress h.progress _ fun _ => rfl
    rw [Digest.update, bytes, digest, same, format, imagePadding, hdr]
    rfl
  have end_ : imageStart S x.downloadFlag x.imageIndex + imageLen S x.imageIndex ≤ taken := by
    have := amid.used
    have := amid.length
    omega
  have verify {k : List Event} (events : ∀ w ∈ k, w.apart = true ∨ ∃ equal, w =
      .hashed (some x.imageIndex) (imagePart S x.downloadFlag taken x.imageIndex ++
        imagePadding S x.imageIndex) equal) : Ledger S x.downloadFlag taken (l ++ k) :=
    h.ledger.verify amid.flag end_ rfl events
  rcases verifyImageHash_cases e img hc with ⟨err, t, d, k, run, quiet, events⟩ |
    ⟨t, k, run, quiet, notes, -⟩
  · rw [run]
    refine ⟨taken, lo, hi, (verify fun w mem => ?_).exact⟩
    obtain ⟨note, rfl⟩ | rfl := events w mem
    · exact .inl rfl
    · rw [index, padded]
      exact .inr ⟨_, rfl⟩
  · rw [run, index, padded]
    have ledger := verify (k := k ++ [.hashed (some x.imageIndex)
        (imagePart S x.downloadFlag taken x.imageIndex ++ imagePadding S x.imageIndex) true])
      fun w mem => by
        obtain mem | mem := List.mem_append.mp mem
        · obtain ⟨note, rfl⟩ := notes w mem
          exact .inl rfl
        · rw [List.mem_singleton.mp mem]
          exact .inr ⟨_, rfl⟩
    have progress : (c.verified img).progress = (x.verified img).progress :=
      eq_of_progress h.progress (fun c => (c.verified img).progress) fun _ => rfl
    have before := h.verified.append (k ++ [.hashed (some x.imageIndex)
      (imagePart S x.downloadFlag taken x.imageIndex ++ imagePadding S x.imageIndex) true])
    refine ⟨⟨c.verified img, rfl, ⟨progress, h.state, quiet.imageHdr.trans h.hdrs, ledger,
      before⟩, fun i lt flag pos => ?_⟩, taken, lo, hi, ledger.exact⟩
    obtain lt | rfl := Nat.lt_or_eq_of_le (Nat.lt_succ_iff.mp lt)
    · exact before i lt flag pos
    · exact ⟨_, List.mem_append_right _ (List.mem_append_right _ (.head _))⟩

/-- The session is about to receive data: for the image it is at, or for the next one. -/
structure Awaits (S : List UInt8) (taken : Nat) (c : Cxt) : Prop extends Imaging S c where
  between : c.imageWrtLength = 0 → taken = imageStart S c.downloadFlag c.imageIndex ∧
    c.imageIndex < c.totalImages ∧ c.downloadFlag c.imageIndex = true
  current : c.imageWrtLength ≠ 0 → Midst S taken c ∧ c.imageWrtCount < c.imageWrtLength

theorem Awaits.congr {c : Cxt} (same : c.progress = x.progress) (h : Awaits S taken x) :
    Awaits S taken c where
  toImaging := h.toImaging.congr same
  between := by
    have between := h.between
    rw [← eq_of_progress same (fun c => c.imageWrtLength = 0 → taken = imageStart S c.downloadFlag
      c.imageIndex ∧ c.imageIndex < c.totalImages ∧ c.downloadFlag c.imageIndex = true)
      fun _ => rfl] at between
    exact between
  current busy := by
    have length : c.imageWrtLength = x.imageWrtLength := eq_of_progress same _ fun _ => rfl
    have count : c.imageWrtCount = x.imageWrtCount := eq_of_progress same _ fun _ => rfl
    rw [length] at busy ⊢
    rw [count]
    exact ⟨(h.current busy).1.congr same, (h.current busy).2⟩

/-- It does not matter how much of the packet is left. -/
theorem Awaits.rebuffer (h : Awaits S taken x) (len offset : Nat) (state : FwState) :
    Awaits S taken { x with bufLen := len, bufOffset := offset, fwUpgradeState := state } := by
  refine ⟨⟨h.first, h.format, h.total, h.flags⟩, h.between, fun busy => ?_⟩
  obtain ⟨midst, lt⟩ := h.current busy
  exact ⟨⟨⟨h.first, h.format, h.total, h.flags⟩,
    ⟨midst.index, midst.flag, midst.length, midst.used, midst.fits⟩, midst.digest⟩, lt⟩

/-- An image is left behind that is complete, or more of it is to come. -/
structure Passed (S : List UInt8) (taken offset : Nat) (c : Cxt) : Prop extends Imaging S c where
  offset : c.bufOffset = offset
  next : c.fwUpgradeState = .disconnectServer ∧ Paused S taken c ∨
    c.fwUpgradeState = .processImage ∧ Awaits S taken c

theorem Passed.congr {c : Cxt} {offset : Nat} (same : c.progress = x.progress)
    (state : c.fwUpgradeState = x.fwUpgradeState) (h : Passed S taken offset x) :
    Passed S taken offset c where
  toImaging := h.toImaging.congr same
  offset := (eq_of_progress same _ fun _ => rfl).trans h.offset
  next := by
    rw [state]
    exact h.next.imp (.imp_right (·.congr same)) (.imp_right (·.congr same))

/-- The session goes on to the next image. -/
theorem nextImage_rests (img : ImageHdr) {y : Cxt} (partial_ : hdrFormat S = formatPartial)
    (imaging : Imaging S y)
    (flag : y.downloadFlag y.imageIndex = true)
    (used : taken = imageStart S y.downloadFlag y.imageIndex + imageLen S y.imageIndex) :
    Triple (Stays (Partly S pos n) fun s c l => Stands S taken y s c l ∧
        Digested y.downloadFlag S (y.imageIndex + 1) l)
      (do
        nextImage img
        let c ← getCxt
        if c.format = formatPartial then
          setState .disconnectServer
          pure false
        else if c.totalImages ≤ c.imageIndex then
          setState .duplicateFs
          pure true
        else pure false)
      fun r s l => match r with
        | .ok last => last = false ∧ Rests S pos n taken (Passed S taken y.bufOffset) s l
        | .error _ => Partly S pos n l := by
  apply Triple.of
  rintro s l ⟨⟨c, hc, h, digested⟩, partly⟩
  have flags : c.downloadFlag = y.downloadFlag := eq_of_progress h.progress _ fun _ => rfl
  have index : c.imageIndex = y.imageIndex := eq_of_progress h.progress _ fun _ => rfl
  have kept : Imaging S c := imaging.congr h.progress
  have format : (c.next img).format = formatPartial := kept.format.trans partial_
  have cxt : (s.hold (freed c.partitionHdl s.handles) (some (c.next img))).cxt =
    some (c.next img) := rfl
  simp only [Act.bind_run, nextImage_run img hc, Act.andThen_ok, getCxt_run cxt, Act.ite_run,
    if_pos format, setState, updateCxt_run cxt, Act.pure_run, List.append_nil]
  have start : taken = imageStart S c.downloadFlag (c.imageIndex + 1) := by
    rw [flags, index, used, imageStart, if_pos flag]
  have stands : Stands S taken { c.next img with fwUpgradeState := .disconnectServer }
      ((s.hold (freed c.partitionHdl s.handles) (some (c.next img))).withCxt
        { c.next img with fwUpgradeState := .disconnectServer })
      { c.next img with fwUpgradeState := .disconnectServer } l := by
    refine ⟨rfl, rfl, h.hdrs, ?_, ?_⟩
    · exact flags ▸ h.ledger
    · change Digested c.downloadFlag S (c.imageIndex + 1) l
      rw [flags, index]
      exact digested
  refine ⟨trivial, ⟨⟨_, rfl, stands, ⟨kept.first, kept.format, kept.total, kept.flags⟩, ?_,
    .inl ⟨rfl, ?_⟩⟩, partly⟩⟩
  · exact eq_of_progress h.progress Cxt.bufOffset fun _ => rfl
  · exact ⟨⟨kept.first, kept.format, kept.total, kept.flags⟩, rfl, start⟩

/-- What is left behind by the rest of a pass, after the data is written. -/
def PassedOn (S : List UInt8) (pos n taken offset : Nat) (r : Except Status Bool) (s : St)
    (l : List Event) : Prop :=
  match r with
  | .ok last => last = false ∧ Rests S pos n taken (Passed S taken offset) s l
  | .error _ => Partly S pos n l

/-- A complete image is verified and left. -/
theorem finishIfComplete_stands (e : Env) {img : ImageHdr} (lo : pos ≤ taken) (hi : taken ≤ pos + n)
    (midst : Midst S taken x) (hdr : (streamHdrs S)[x.imageIndex]? = some img)
    {Q : Except Status Bool → St → List Event → Prop}
    (stop : ∀ err s l, Partly S pos n l → Q (.error err) s l)
    (done : taken = imageStart S x.downloadFlag x.imageIndex + imageLen S x.imageIndex →
      Triple (Stays (Partly S pos n) fun s d l => Stands S taken (x.verified img) s d l ∧
          Digested x.downloadFlag S (x.imageIndex + 1) l)
        (do
          nextImage img
          let c ← getCxt
          if c.format = formatPartial then
            setState .disconnectServer
            pure false
          else if c.totalImages ≤ c.imageIndex then
            setState .duplicateFs
            pure true
          else pure false) Q)
    (more : x.imageWrtCount < x.imageWrtLength → ∀ s l, Stand S pos n taken x s l →
      Q (.ok false) s l) :
    Triple (Stand S pos n taken x) (finishIfComplete e img) Q := by
  apply stand_getCxt
  intro c same state
  have count : c.imageWrtCount = x.imageWrtCount := eq_of_progress same _ fun _ => rfl
  have length : c.imageWrtLength = x.imageWrtLength := eq_of_progress same _ fun _ => rfl
  rw [count, length]
  refine .pre ?_ fun s l h => h.congr same state
  refine .ite (fun whole => ?_) fun short => .pure false (more (Nat.not_le.mp short))
  have verify := verifyImageHash_stands e lo hi midst.toAmid midst.format midst.digest hdr whole
  refine .bind (M := fun _ => Stays (Partly S pos n) fun s d l => Stands S taken (x.verified img)
    s d l ∧ Digested x.downloadFlag S (x.imageIndex + 1) l) (.cleanUp (M := fun _ _ l =>
      Partly S pos n l) (verify.post fun r s l h => ?_) fun err => Triple.of ?_) fun _ => done ?_
  · cases r with
    | ok => exact h
    | error => exact h
  · intro s l partly
    have release := releasePartition_steady.run s
    exact stop _ _ _ (partly.apart fun w mem => Event.apart_of_plain (release.events w mem))
  · have := midst.used
    have := midst.length
    have := midst.fits
    omega

/-- After a complete image of a partial upgrade the session looks for the next one. -/
theorem finishIfComplete_rests (e : Env) {img : ImageHdr} (lo : pos ≤ taken) (hi : taken ≤ pos + n)
    (format : hdrFormat S = formatPartial) (midst : Midst S taken x)
    (state : x.fwUpgradeState = .processImage) (hdr : (streamHdrs S)[x.imageIndex]? = some img) :
    Triple (Stand S pos n taken x) (finishIfComplete e img)
      (PassedOn S pos n taken x.bufOffset) := by
  refine finishIfComplete_stands e lo hi midst hdr (fun _ _ _ h => h) (fun used => ?_) ?_
  · refine (nextImage_rests (y := x.verified img) img format
      ⟨midst.first, midst.format, midst.total, midst.flags⟩ midst.flag used).post fun r s l h => ?_
    cases r with
    | ok => exact h
    | error => exact h
  · refine fun short s l h => ⟨rfl, h.rests fun c same state' => ?_⟩
    have there := midst.congr same
    have lt : c.imageWrtCount < c.imageWrtLength := by
      have count : c.imageWrtCount = x.imageWrtCount := eq_of_progress same _ fun _ => rfl
      have length : c.imageWrtLength = x.imageWrtLength := eq_of_progress same _ fun _ => rfl
      omega
    exact ⟨there.toImaging, eq_of_progress same _ fun _ => rfl,
      .inr ⟨state'.trans state, there.toImaging, fun idle => by omega, fun _ => ⟨there, lt⟩⟩⟩

theorem Midst.wrote (midst : Midst S pos x) (room : x.imageWrtCount + n ≤ x.imageWrtLength)
    (length : ((S.drop pos).take n).length = n) :
    Midst S (pos + n) (x.wrote ((S.drop pos).take n)) := by
  have used := midst.used
  have whole := midst.length
  refine ⟨⟨midst.first, midst.format, midst.total, midst.flags⟩,
    ⟨midst.index, midst.flag, midst.length, ?_, ?_⟩, ?_⟩
  · change pos + n = imageStart S x.downloadFlag x.imageIndex + (x.imageWrtCount + _)
    rw [length]
    omega
  · change x.imageWrtCount + _ ≤ x.imageWrtLength
    rw [length]
    exact room
  · change x.digest.bytes ++ _ = imagePart S x.downloadFlag (pos + n) x.imageIndex
    rw [imagePart_grow (by omega) (by omega), midst.digest]

/-- What a call makes of a packet for an image. -/
def Absorbed (S : List UInt8) (pos n : Nat) (r : Except Status Unit) (s : St) (l : List Event) :
    Prop :=
  match r with
  | .ok _ => Rests S pos n (pos + n) (Passed S (pos + n) n) s l
  | .error _ => Partly S pos n l

theorem writePass_absorbs (e : Env) {p : Packet} {img : ImageHdr} {next : M Unit}
    (carries : Carries S pos p) (format : hdrFormat S = formatPartial) (midst : Midst S pos x)
    (bufLen : x.bufLen = p.len) (state : x.fwUpgradeState = .processImage)
    (hdr : (streamHdrs S)[x.imageIndex]? = some img) :
    Triple (Stand S pos p.len pos x) (writePass e p img formatPartial next)
      (Absorbed S pos p.len) := by
  have length : ((S.drop pos).take p.len).length = p.len := by
    rw [← carries.data, length_load]
  have source : x.source = 0 := if_pos (midst.format.trans format)
  have writeLen : x.writeLen = p.len := (if_pos (midst.format.trans format)).trans bufLen
  have write := writeImageData_stands e carries midst bufLen (by rw [source]; rfl)
    (by rw [source]; exact Nat.zero_le _)
  refine .andThen write (fun _ _ _ h => h) fun _ => .assume (fun s l h => h.1) fun room => ?_
  rw [writeLen] at room
  have finish := finishIfComplete_rests e (Nat.le_add_right _ _)
    (Nat.le_refl _) format (midst.wrote room length) state hdr
  refine .andThen (finish.pre fun s l h => ?_) (fun _ _ _ h => h) fun last => ?_
  · have here := h.2
    rw [writeLen] at here
    exact here
  refine .assume (fun s l h => h.1) fun no => ?_
  rw [no, if_neg Bool.false_ne_true]
  refine (rests_elim (φ := Passed S (pos + p.len) (x.wrote ((S.drop pos).take p.len)).bufOffset)
    fun y passed => ?_).pre fun s l h => h.2
  refine stand_bind (stand_steady (.orFail (eraseNext_steady e) _)) (fun _ _ _ h => h) fun _ => ?_
  refine .pure () fun s l h => h.rests fun c same state => ?_
  have offset : (x.wrote ((S.drop pos).take p.len)).bufOffset = p.len := by
    rw [Cxt.wrote, source, length, Nat.zero_add]
  rw [offset] at passed
  exact passed.congr same state

theorem Awaits.lt {c : Cxt} (h : Awaits S taken c) : c.imageIndex < c.totalImages := by
  by_cases idle : c.imageWrtLength = 0
  · exact (h.between idle).2.1
  · exact (h.current idle).1.index

/-- The entry of the image that data is received for is one of the stream's header. -/
theorem Awaits.hdr (h : Awaits S taken x) (p : Packet) : (streamHdrs S)[x.imageIndex]? =
    some ((streamHdrs S).getD x.imageIndex (p.wild x.imageIndex)) := by
  have lt : x.imageIndex < (streamHdrs S).length := h.total ▸ h.lt
  rw [List.getD_eq_getElem?_getD, List.getElem?_eq_getElem lt]
  rfl

/-- With the partition created an image is at its start. -/
theorem Awaits.begun {img : ImageHdr} (h : Awaits S taken x) (idle : x.imageWrtLength = 0)
    (hdr : (streamHdrs S)[x.imageIndex]? = some img) : Midst S taken { x with
      imageWrtCount := 0, imageWrtLength := img.imageLength, digest := .starts } := by
  obtain ⟨used, index, flag⟩ := h.between idle
  refine ⟨⟨h.first, h.format, h.total, h.flags⟩, ⟨index, flag, (imageLen_of_get hdr).symm, used,
    Nat.zero_le _⟩, ?_⟩
  change [] = imagePart S x.downloadFlag taken x.imageIndex
  rw [imagePart_eq, used, Nat.sub_self, Nat.min_zero, List.take_zero]

/-- The entry that is read is the one of the stream's header. -/
theorem stand_readImageHdr {p : Packet} {i : Nat} {f : ImageHdr → M β}
    {Q : Except Status β → St → List Event → Prop}
    (rest : Triple (Stand S pos n taken x) (f ((streamHdrs S).getD i (p.wild i))) Q) :
    Triple (Stand S pos n taken x) (readImageHdr p i >>= f) Q := by
  rintro s l ⟨⟨c, hc, h⟩, partly⟩
  have one : ∀ w ∈ [Event.note (.header i (s.hasImageHdr i))], w.apart = true :=
    fun w mem => List.mem_singleton.mp mem ▸ rfl
  have read : readImageHdr p i s = ⟨.ok ((streamHdrs S).getD i (p.wild i)), s,
      [.note (.header i (s.hasImageHdr i))]⟩ := by
    change Out.mk (.ok ((s.imageHdr.getD []).getD i (p.wild i))) s _ = _
    rw [h.hdrs]
    rfl
  obtain ⟨-, post⟩ := rest s (l ++ [.note (.header i (s.hasImageHdr i))])
    ⟨⟨c, hc, h.apart rfl rfl rfl one⟩, partly.apart one⟩
  rw [Act.bind_run, read, Act.andThen_ok, ← List.append_assoc]
  exact ⟨.single trivial, post⟩

theorem processReceiveImage_absorbs (e : Env) {p : Packet} (fuel : Nat) (carries : Carries S pos p)
    (format : hdrFormat S = formatPartial) (ready : Awaits S pos x) (bufLen : x.bufLen = p.len)
    (state : x.fwUpgradeState = .processImage) :
    Triple (Stand S pos p.len pos x) (processReceiveImage e p (fuel + 1))
      (Absorbed S pos p.len) := by
  have stop : ∀ err s l, Partly S pos p.len l → Absorbed S pos p.len (.error err) s l :=
    fun _ _ _ h => h
  rw [processReceiveImage_succ]
  apply stand_getCxt
  intro c same state'
  replace ready := ready.congr same
  have len : c.bufLen = p.len := (eq_of_progress same _ fun _ => rfl).trans bufLen
  have hdr := ready.hdr p
  have partial_ : c.format = formatPartial := ready.format.trans format
  simp only [partial_, ne_eq, not_true_eq_false, false_and, and_false, if_false]
  apply stand_readImageHdr
  generalize (streamHdrs S).getD c.imageIndex (p.wild c.imageIndex) = img at hdr
  by_cases idle : c.imageWrtLength = 0
  · simp only [Act.when_pos idle]
    refine stand_bind (startImage_stands e img) stop fun _ => stand_bind
      (y := { c with imageWrtCount := 0, imageWrtLength := img.imageLength, digest := .starts })
      ?_ stop fun _ => writePass_absorbs e carries format (ready.begun idle hdr) len
        (state'.trans state) hdr
    exact stand_updateCxt (fun _ => rfl) rfl (fun _ h => h) rfl fun _ h => h
  · simp only [Act.when_neg idle]
    refine stand_bind (.pure () fun s l h => h) stop fun _ => stand_bind (.pure () fun s l h => h)
      stop fun _ => writePass_absorbs e carries format (ready.current idle).1 len
        (state'.trans state) hdr

end Qapp.Fw
