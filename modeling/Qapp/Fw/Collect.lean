import Qapp.Fw.Stream
import Qapp.Fw.Image
import Qapp.Fw.Assert

/-!
# Collecting the header from a stream

Packets of a stream are copied into the header buffer until the header is complete. An
accepted header is the one the stream begins with.
-/

namespace Qapp.Fw
open ByteMem Traced

variable {e : Env} {S : List UInt8} {α β : Type}

/-! ## Fields of a part of the stream -/

theorem field_take {n k : Nat} (le : k + 4 ≤ n) : field (S.take n) k = field S k := by
  rw [field, field, List.drop_take, List.take_take, Nat.min_eq_left (by omega)]

theorem hdrLength_take {n : Nat} (le : hdrPart1Len ≤ n) : hdrLength (S.take n) = hdrLength S :=
  field_take (Nat.le_trans (by decide) le)

theorem hdrFormat_take {n : Nat} (le : hdrPart1Len ≤ n) : hdrFormat (S.take n) = hdrFormat S :=
  field_take (Nat.le_trans (by decide) le)

theorem hdrNumImages_take {n : Nat} (le : hdrPart1Len ≤ n) :
    hdrNumImages (S.take n) = hdrNumImages S := by
  have lt : 16 < n := le
  simp only [hdrNumImages, List.getD_eq_getElem?_getD, List.getElem?_take_of_lt lt]

/-! ## Code that leaves the images alone -/

/-- Nothing of the images has happened. -/
def Blank (l : List Event) : Prop := ∀ w ∈ l, w.apart = true

theorem Blank.append {k l : List Event} (hk : Blank k) (hl : Blank l) : Blank (k ++ l) :=
  fun w mem => (List.mem_append.mp mem).elim (hk w) (hl w)

theorem Blank.snoc {l : List Event} {w : Event} (h : Blank l) (apart : w.apart = true) :
    Blank (l ++ [w]) :=
  h.append fun _ mem => List.mem_singleton.mp mem ▸ apart

abbrev Blankly (R : St → Cxt → Prop) : St → List Event → Prop := Stays Blank fun s c _ => R s c

theorem blankly_within {γ : Type} {F : Scope γ} {R : St → Cxt → Prop} {m : M α}
    (h : Within F.frame m) (open_ : F.ends = false) (apart : ∀ w, F.event w = true → w.apart = true)
    (keep : ∀ s t c d, F.keeps t d = F.keeps s c → R s c → R t d) :
    Triple (Blankly R) m fun _ => Blankly R :=
  stays_within h open_ (fun _ _ events blank => blank.append fun w mem => apart w (events w mem))
    fun s t c d _ _ same _ _ => keep s t c d same

theorem blankly_emit {R : St → Cxt → Prop} {w : Event} (apart : w.apart = true) :
    Triple (Blankly R) (Act.emit w : M Unit) fun _ => Blankly R :=
  .emit (fun _ _ _ => .single trivial) fun _ _ h => ⟨h.1, h.2.snoc apart⟩

/-- What an update of the digest or the header buffer leaves. -/
def Cxt.adoption (c : Cxt) : Cxt := { c.progress with digest := .starts, configBuf := none }

/-! ## Receiving the header -/

/-- The session waits for a header of which it has `taken` bytes. -/
structure Heading (S : List UInt8) (taken : Nat) (c : Cxt) : Prop where
  first : c.isFirst = true
  index : c.imageIndex = 0
  length : c.imageWrtLength = 0
  flags : ∀ i, c.downloadFlag i = true
  buffer : taken = 0 ∧ c.configBuf = none ∨
    c.configBuf = some (S.take taken) ∧ c.imageWrtCount = taken ∧ hdrPart1Len ≤ taken ∧
      taken < hdrLength S ∧ c.format = hdrFormat S ∧ 0 < hdrNumImages S

/-- The header is complete; `offset` bytes of the packet belong to it. In a partial upgrade flags
may have been cleared already. -/
structure Headed (S : List UInt8) (offset len : Nat) (c : Cxt) : Prop where
  first : c.isFirst = true
  index : c.imageIndex = 0
  length : c.imageWrtLength = 0
  format : c.format = hdrFormat S
  flags : hdrFormat S ≠ formatPartial → ∀ i, c.downloadFlag i = true
  bufLen : c.bufLen = len
  bufOffset : c.bufOffset = offset

theorem Heading.congr {taken : Nat} {c d : Cxt} (same : d.progress = c.progress)
    (h : Heading S taken c) : Heading S taken d where
  first := (congrArg Cxt.isFirst same).trans h.first
  index := (congrArg Cxt.imageIndex same).trans h.index
  length := (congrArg Cxt.imageWrtLength same).trans h.length
  flags := fun i => (congrFun (congrArg Cxt.downloadFlag same) i).trans (h.flags i)
  buffer := by
    have config : d.progress.configBuf = c.progress.configBuf := congrArg Cxt.configBuf same
    have count : d.progress.imageWrtCount = c.progress.imageWrtCount :=
      congrArg Cxt.imageWrtCount same
    have format : d.progress.format = c.progress.format := congrArg Cxt.format same
    change taken = 0 ∧ d.progress.configBuf = none ∨ d.progress.configBuf = _ ∧
      d.progress.imageWrtCount = _ ∧ _ ∧ _ ∧ d.progress.format = _ ∧ _
    rw [config, count, format]
    exact h.buffer

theorem Headed.congr {offset len : Nat} {c d : Cxt} (same : d.progress = c.progress)
    (h : Headed S offset len c) : Headed S offset len d where
  first := (congrArg Cxt.isFirst same).trans h.first
  index := (congrArg Cxt.imageIndex same).trans h.index
  length := (congrArg Cxt.imageWrtLength same).trans h.length
  format := (congrArg Cxt.format same).trans h.format
  flags := fun full i => (congrFun (congrArg Cxt.downloadFlag same) i).trans (h.flags full i)
  bufLen := (congrArg Cxt.bufLen same).trans h.bufLen
  bufOffset := (congrArg Cxt.bufOffset same).trans h.bufOffset

/-- What receiving a packet for the header comes to. -/
def Collected (S : List UInt8) (taken len : Nat) (r : Except Status (Option (List UInt8)))
    (s : St) (l : List Event) : Prop :=
  match r with
  | .ok none => Blankly (fun _ c => Heading S (taken + len) c ∧ c.bufOffset = len ∧
      c.fwUpgradeState = .receiveData) s l
  | .ok (some b) => b = S.take (hdrLength S) ∧ 0 < hdrNumImages S ∧ hdrPart1Len ≤ hdrLength S ∧
      ∃ n ≤ len, taken + n = hdrLength S ∧ Blankly (fun _ c => Headed S n len c) s l
  | .error _ => Blank l

theorem collected_more {taken len : Nat} : Triple
    (Blankly fun _ c => Heading S (taken + len) c ∧ c.bufOffset = len) (do
      setState .receiveData
      pure none : M (Option (List UInt8))) (Collected S taken len) := by
  refine stays_bind (stays_updateCxt (T := fun _ c _ => Heading S (taken + len) c ∧
    c.bufOffset = len ∧ c.fwUpgradeState = .receiveData) ?_) (fun _ _ _ h => h) fun _ =>
      .pure _ fun _ _ h => h
  rintro s c l ⟨heading, offset⟩
  exact ⟨.congr (c := c) rfl heading, offset, rfl⟩

/-- The progress is that of `x`. -/
def Like (x : Cxt) (_ : St) (c : Cxt) : Prop := c.progress = x.progress

theorem like_steady {x : Cxt} {m : M α} (h : Steady m) :
    Triple (Blankly (Like x)) m fun _ => Blankly (Like x) :=
  blankly_within h rfl (fun _ => Event.apart_of_plain)
    fun _ _ _ _ same like => (congrArg Prod.snd same).trans like

theorem like_updateCxt {x : Cxt} {g : Cxt → Cxt}
    (local' : ∀ c, (g c).progress = (g c.progress).progress) :
    Triple (Blankly (Like x)) (updateCxt g) fun _ => Blankly (Like (g x)) :=
  stays_updateCxt fun s c _ like => by
    rw [Like, local', show c.progress = x.progress from like, ← local']

/-- The context is read when it is known. -/
theorem like_getCxt {x : Cxt} {f : Cxt → M β} {Q : Except Status β → St → List Event → Prop}
    (rest : Triple (Blankly (Like x)) (f x) Q) :
    Triple (fun s l => s.cxt = some x ∧ Blank l) (getCxt >>= f) Q := by
  rintro s l ⟨hc, blank⟩
  rw [Act.bind_ok (getCxt_run hc)]
  exact rest s l ⟨⟨x, hc, rfl⟩, blank⟩

theorem receiveConfigFile_collects {taken : Nat} {buf : Mem} {note : Nat → Event}
    (notes : ∀ n, (note n).apart = true) {c : Cxt} (heading : Heading S taken c)
    (bytes : ∀ n ≤ c.bufLen, load buf 0 n = (S.drop taken).take n) :
    Triple (fun s l => s.cxt = some c ∧ Blank l) (receiveConfigFile buf note)
      (Collected S taken c.bufLen) := by
  have stop : ∀ err s l, Blank l → Collected S taken c.bufLen (.error err) s l :=
    fun _ _ _ h => h
  apply like_getCxt
  obtain ⟨rfl, config⟩ | ⟨config, count, enough, short, format, images⟩ := heading.buffer
  · rw [config]
    dsimp only
    refine .ite (fun _ => stays_fail stop) fun len => ?_
    refine stays_bind (blankly_emit (notes _)) stop fun _ => ?_
    have part : load buf 0 hdrPart1Len = S.take hdrPart1Len := bytes _ (Nat.not_lt.mp len)
    rw [part, hdrNumImages_take (Nat.le_refl _), hdrLength_take (Nat.le_refl _),
      hdrFormat_take (Nat.le_refl _)]
    refine .ite (fun _ => stays_fail stop) fun num => .ite (fun _ => stays_fail stop) fun _ => ?_
    refine stays_bind (like_updateCxt fun _ => rfl) stop fun _ =>
      .ite (fun _ => stays_fail stop) fun total => ?_
    refine stays_bind (like_steady (malloc_steady _)) stop fun ok =>
      .ite (fun _ => stays_fail stop) fun _ => ?_
    refine stays_bind (blankly_emit (notes _)) stop fun _ => ?_
    have images : 0 < hdrNumImages S := (not_not.mp num).1
    have enough : hdrPart1Len ≤ hdrLength S := by
      have := not_not.mp total
      omega
    rw [bytes _ (Nat.min_le_left _ _), List.drop_zero]
    refine stays_bind (like_updateCxt fun _ => rfl) stop fun _ =>
      .ite (fun short => ?_) fun all => ?_
    · have fits : min c.bufLen (hdrLength S) = c.bufLen := Nat.min_eq_left (Nat.le_of_lt short)
      rw [fits]
      refine stays_bind (like_updateCxt fun _ => rfl) stop fun _ => ?_
      refine collected_more.pre fun s l h => h.imp fun d like => ?_
      refine ⟨.congr like ⟨heading.first, heading.index, heading.length, heading.flags,
        .inr ⟨?_, ?_, ?_, ?_, rfl, images⟩⟩, congrArg Cxt.bufOffset like⟩
      all_goals rw [Nat.zero_add]
      · exact Nat.not_lt.mp len
      · exact short
    · have fits : min c.bufLen (hdrLength S) = hdrLength S := Nat.min_eq_right (Nat.not_lt.mp all)
      rw [fits]
      refine .pure _ fun s l h => ⟨rfl, images, enough, _, Nat.not_lt.mp all, Nat.zero_add _,
        h.imp fun d like => ?_⟩
      exact .congr like
        ⟨heading.first, heading.index, heading.length, rfl, fun _ => heading.flags, rfl, rfl⟩
  · rw [config]
    dsimp only
    rw [hdrLength_take enough, count]
    have more : S.take taken ++ load buf 0 (min c.bufLen (hdrLength S - taken)) =
        S.take (taken + min c.bufLen (hdrLength S - taken)) := by
      rw [bytes _ (Nat.min_le_left _ _), List.take_add]
    rw [more]
    refine stays_bind (blankly_emit (notes _)) stop fun _ => ?_
    refine stays_bind (like_updateCxt fun _ => rfl) stop fun _ =>
      .ite (fun short => ?_) fun all => ?_
    · have fits : min c.bufLen (hdrLength S - taken) = c.bufLen := by omega
      rw [fits] at short ⊢
      refine collected_more.pre fun s l h => h.imp fun d like => ?_
      exact ⟨.congr like ⟨heading.first, heading.index, heading.length, heading.flags,
        .inr ⟨rfl, congrArg (· + c.bufLen) count, Nat.le_trans enough (Nat.le_add_right _ _),
          short, format, images⟩⟩, congrArg Cxt.bufOffset like⟩
    · have fits : taken + min c.bufLen (hdrLength S - taken) = hdrLength S := by omega
      rw [fits]
      refine .pure _ fun s l h => ⟨rfl, images, by omega, _, Nat.min_le_left _ _, fits,
        h.imp fun d like => ?_⟩
      exact .congr like
        ⟨heading.first, heading.index, heading.length, format, fun _ => heading.flags, rfl, rfl⟩

/-! ## Accepting the header -/

/-- While a header is accepted, its digest and its buffer go. -/
def adopting : Scope (Option (List ImageHdr) × Cxt) where
  event := Event.plain
  keeps s c := (s.imageHdr, c.adoption)
  enters _ := true
  ends := false

abbrev Adopting (m : M α) : Prop := Within adopting.frame m

theorem Adopting.of {m : M α} (h : Steady m) : Adopting m := by
  apply Scope.widen (S := steady) (T := adopting) (fun _ h => h) _ (fun _ _ => rfl) (fun _ => rfl) h
  intro s t c d same
  obtain ⟨hdrs, progress⟩ := Prod.ext_iff.mp same
  have adoption : d.progress.adoption = c.progress.adoption := congrArg Cxt.adoption progress
  exact Prod.ext hdrs adoption

/-- Updates of the digest or the header buffer. -/
theorem adopting_tune {f : Cxt → Cxt} (same : ∀ c, (f c).adoption = c.adoption) :
    Adopting (updateCxt f) :=
  Scope.updateCxt (fun _ c => Prod.ext rfl (same c)) fun _ => .inr rfl

theorem dropConfigBuf_adopting : Adopting dropConfigBuf :=
  .bind .read fun _ => .ite (.bind (Adopting.of (free_steady _)) fun _ =>
    adopting_tune fun _ => rfl) (.pure _)

theorem hashBlocks_adopting (e : Env) (hdl n offset : Nat) :
    Adopting (hashBlocks e hdl n offset) := by
  induction n generalizing offset with
  | zero => exact .pure _
  | succ n ih =>
    exact .bind (Adopting.of (readPartition_steady ..)) fun ⟨_, _⟩ =>
      .bind (.when (adopting_tune fun _ => rfl)) fun _ => ih _

/-- While the images to download are chosen, their flags are set, too. -/
def sifting : Scope (Option (List ImageHdr) × Cxt) where
  event := Event.plain
  keeps s c := (s.imageHdr, { c.adoption with downloadFlag := fun _ => true })
  enters _ := true
  ends := false

abbrev Sifting (m : M α) : Prop := Within sifting.frame m

theorem Sifting.of {m : M α} (h : Adopting m) : Sifting m := by
  apply Scope.widen (S := adopting) (T := sifting) (fun _ h => h) _ (fun _ h => h) (fun h => h) h
  intro s t c d same
  obtain ⟨hdrs, adoption⟩ := Prod.ext_iff.mp same
  have flags : d.adoption = c.adoption := adoption
  exact Prod.ext hdrs (congrArg (fun c => { c with downloadFlag := fun _ => true }) flags)

theorem setDownloadFlag_sifting (i : Nat) (flag : Bool) : Sifting (setDownloadFlag i flag) :=
  Scope.updateCxt (fun _ _ => rfl) fun _ => .inr rfl

theorem checkDownload_sifting (e : Env) (activeFwd i : Nat) (hs : List ImageHdr) :
    Sifting (checkDownload e activeFwd i hs) := by
  induction hs generalizing i with
  | nil => exact .pure _
  | cons h hs ih =>
    refine .bind (setDownloadFlag_sifting ..) fun _ => .bind (.when ?_) fun _ => ih _
    refine .bind (.attempt (Sifting.of (Adopting.of (findPartition_steady ..)))) fun r => ?_
    cases r with
    | error => exact .pure _
    | ok k =>
      refine .bind (Sifting.of (adopting_tune fun _ => rfl)) fun _ => .bind .read fun _ => ?_
      refine .bind (Sifting.of (hashBlocks_adopting ..)) fun _ => ?_
      refine .bind (Sifting.of (Adopting.of (releaseHandle_steady _))) fun _ => .bind ?_ fun _ =>
        .when (setDownloadFlag_sifting ..)
      exact .bind Scope.getCxt fun _ =>
        .bind (Sifting.of (adopting_tune fun _ => rfl)) fun _ => .pure _

theorem Headed.adopting {offset len : Nat} {c d : Cxt} (same : d.adoption = c.adoption)
    (h : Headed S offset len c) : Headed S offset len d where
  first := (congrArg Cxt.isFirst same).trans h.first
  index := (congrArg Cxt.imageIndex same).trans h.index
  length := (congrArg Cxt.imageWrtLength same).trans h.length
  format := (congrArg Cxt.format same).trans h.format
  flags := fun full i => (congrFun (congrArg Cxt.downloadFlag same) i).trans (h.flags full i)
  bufLen := (congrArg Cxt.bufLen same).trans h.bufLen
  bufOffset := (congrArg Cxt.bufOffset same).trans h.bufOffset

/-- The images of the session are known. Only a partial upgrade leaves some out. -/
structure Imaging (S : List UInt8) (c : Cxt) : Prop where
  first : c.isFirst = false
  format : c.format = hdrFormat S
  total : c.totalImages = (streamHdrs S).length
  flags : hdrFormat S ≠ formatPartial → ∀ i, c.downloadFlag i = true

/-- No image is being received; the images before have used `taken` bytes. -/
structure Paused (S : List UInt8) (taken : Nat) (c : Cxt) : Prop extends Imaging S c where
  idle : c.imageWrtLength = 0
  used : taken = imageStart S c.downloadFlag c.imageIndex

/-- Progress and state are those of `x`; as far as `taken` the stream has been used. -/
structure Stands (S : List UInt8) (taken : Nat) (x : Cxt) (s : St) (c : Cxt) (l : List Event) :
    Prop where
  progress : c.progress = x.progress
  state : c.fwUpgradeState = x.fwUpgradeState
  hdrs : s.imageHdr = some (streamHdrs S)
  ledger : Ledger S x.downloadFlag taken l
  verified : Digested x.downloadFlag S x.imageIndex l

/-- The state after a header of which `offset` of the `len` bytes of a packet were a part. -/
def afterHeader (S : List UInt8) (offset len : Nat) : FwState :=
  if hdrFormat S = formatPartial then .disconnectServer
  else if len ≤ offset then .receiveData else .processImage

/-- The header has just been accepted. -/
structure Adopted (S : List UInt8) (offset len : Nat) (s : St) (c : Cxt) (l : List Event) : Prop
    extends Paused S (hdrLength S) c, Stands S (hdrLength S) c s c l where
  ahead : c.imageIndex < c.totalImages
  bufLen : c.bufLen = len
  bufOffset : c.bufOffset = offset
  onward : c.fwUpgradeState = afterHeader S offset len

/-- The session stands at the header's end, with the images known. -/
structure AtImages (S : List UInt8) (offset len : Nat) (s : St) (c : Cxt) : Prop extends
    Headed S offset len c where
  total : c.totalImages = hdrNumImages S
  hdrs : s.imageHdr = some (streamHdrs S)

theorem AtImages.sifted {offset len : Nat} {s t : St} {c d : Cxt} (h : AtImages S offset len s c)
    (format : hdrFormat S = formatPartial) (hdrs : t.imageHdr = s.imageHdr)
    (same : { d.adoption with downloadFlag := fun _ => true } =
      { c.adoption with downloadFlag := fun _ => true }) : AtImages S offset len t d where
  first := (congrArg Cxt.isFirst same).trans h.first
  index := (congrArg Cxt.imageIndex same).trans h.index
  length := (congrArg Cxt.imageWrtLength same).trans h.length
  format := (congrArg Cxt.format same).trans h.format
  flags := fun full => absurd format full
  bufLen := (congrArg Cxt.bufLen same).trans h.bufLen
  bufOffset := (congrArg Cxt.bufOffset same).trans h.bufOffset
  total := (congrArg Cxt.totalImages same).trans h.total
  hdrs := hdrs.trans h.hdrs

/-- The last steps: the images are announced. -/
theorem announce_adopts {offset len : Nat} (inside : hdrLength S ≤ S.length)
    (images : 0 < hdrNumImages S) (length : (streamHdrs S).length = hdrNumImages S)
    (raw : List ImageHdr) {s : St} {l : List Event} {c : Cxt} (at_ : AtImages S offset len s c)
    (blank : Blank l) {state : FwState} (onward : state = afterHeader S offset len) :
    Adopted S offset len (s.withCxt { c with isFirst := false, fwUpgradeState := state })
      { c with isFirst := false, fwUpgradeState := state }
      (l ++ [.images raw (streamHdrs S) c.downloadFlag]) := by
  have total : c.totalImages = (streamHdrs S).length := at_.total.trans length.symm
  have last : .images raw (streamHdrs S) c.downloadFlag ∈
      l ++ [.images raw (streamHdrs S) c.downloadFlag] := List.mem_append_right _ (.head _)
  have none : ∀ i, imagePart S c.downloadFlag (hdrLength S) i = [] := by
    intro i
    have lo : hdrLength S ≤ imageStart S c.downloadFlag i := imageStart_mono (Nat.zero_le i)
    rw [imagePart_eq, Nat.sub_eq_zero_of_le lo, Nat.min_zero, List.take_zero]
  have ledger : Ledger S c.downloadFlag (hdrLength S)
      (l ++ [.images raw (streamHdrs S) c.downloadFlag]) := by
    constructor
    · exact ⟨raw, last⟩
    · intro raw' hdrs flags mem
      obtain mem | mem := List.mem_append.mp mem
      · cases blank _ mem
      · obtain ⟨-, rfl, rfl⟩ : raw' = raw ∧ hdrs = streamHdrs S ∧ flags = c.downloadFlag := by
          simpa using List.mem_singleton.mp mem
        exact ⟨rfl, rfl⟩
    · exact inside
    · intro i _
      have unused : ∀ w ∈ l ++ [.images raw (streamHdrs S) c.downloadFlag], w.chunk i = .none := by
        intro w mem
        obtain mem | mem := List.mem_append.mp mem
        · exact Event.chunk_of_apart (blank w mem) i
        · rw [List.mem_singleton.mp mem]
          rfl
      have := stored_append_none (l := []) unused
      rw [List.nil_append] at this
      rw [none, this]
      rfl
    · intro i bytes equal mem
      obtain mem | mem := List.mem_append.mp mem
      · cases blank _ mem
      · cases List.mem_singleton.mp mem
  constructor
  · refine ⟨⟨rfl, at_.format, total, at_.flags⟩, at_.length, ?_⟩
    change hdrLength S = imageStart S c.downloadFlag c.imageIndex
    rw [at_.index]
    rfl
  · refine ⟨rfl, rfl, at_.hdrs, ledger, fun i lt => absurd lt ?_⟩
    rw [show _ = 0 from at_.index]
    exact Nat.not_lt_zero i
  · change c.imageIndex < c.totalImages
    rw [at_.index, at_.total]
    exact images
  · exact at_.bufLen
  · exact at_.bufOffset
  · exact onward

/-- What accepting the header comes to. -/
def Adopts (S : List UInt8) (offset len : Nat) (r : Except Status Unit) (s : St)
    (l : List Event) : Prop :=
  match r with
  | .ok _ => ∃ c, s.cxt = some c ∧ Adopted S offset len s c l
  | .error _ => Blank l

theorem acceptConfigFile_adopts (e : Env) {offset len : Nat} (inside : hdrLength S ≤ S.length)
    (images : 0 < hdrNumImages S) (enough : hdrPart1Len ≤ hdrLength S) :
    Triple (Blankly fun _ c => Headed S offset len c) (acceptConfigFile e (S.take (hdrLength S)))
      (Adopts S offset len) := by
  have stop : ∀ err s l, Blank l → Adopts S offset len (.error err) s l := fun _ _ _ h => h
  have headed {α : Type} {m : M α} (h : Adopting m) :
      Triple (Blankly fun _ c => Headed S offset len c) m fun _ =>
        Blankly fun _ c => Headed S offset len c :=
    blankly_within h rfl (fun _ => Event.apart_of_plain) fun _ _ _ _ same h =>
      h.adopting (congrArg Prod.snd same)
  have atImages {α : Type} {m : M α} (h : Adopting m) :
      Triple (Blankly (AtImages S offset len)) m fun _ => Blankly (AtImages S offset len) := by
    apply blankly_within h rfl fun _ => Event.apart_of_plain
    intro s t c d same h
    obtain ⟨hdrs, adoption⟩ := Prod.ext_iff.mp same
    exact ⟨h.toHeaded.adopting adoption, (congrArg Cxt.totalImages adoption).trans h.total,
      hdrs.trans h.hdrs⟩
  unfold acceptConfigFile
  refine stays_bind (headed (adopting_tune fun _ => rfl)) stop fun _ => ?_
  refine stays_bind (blankly_emit rfl) stop fun _ => .ite (fun _ => stays_fail stop) fun _ => ?_
  refine stays_bind (headed (.orFail (Adopting.of (writeFwdHeader_steady ..)) _)) stop fun _ => ?_
  rw [hdrNumImages_take enough]
  refine stays_bind (stays_updateCxt (T := fun _ c _ => Headed S offset len c ∧
    c.totalImages = hdrNumImages S) fun s c _ h => ?_) stop fun _ => ?_
  · exact ⟨⟨h.first, h.index, h.length, h.format, h.flags, h.bufLen, h.bufOffset⟩, rfl⟩
  refine stays_bind (blankly_within (malloc_steady _) rfl (fun _ => Event.apart_of_plain)
    fun s t c d same h => ?_) stop fun _ => .ite (fun _ => ?_) fun _ => ?_
  · have progress : d.progress = c.progress := (Prod.ext_iff.mp same).2
    have total : d.progress.totalImages = c.progress.totalImages :=
      congrArg Cxt.totalImages progress
    exact ⟨.congr progress h.1, total.trans h.2⟩
  · exact stays_bind (stays_update (T := fun _ _ _ => True) (fun _ => rfl) fun _ _ _ _ => trivial)
      stop fun _ => stays_fail stop
  have length := parseImageHdrs_length (hdrNumImages S) ((S.take (hdrLength S)).drop hdrPart1Len)
  have hdrs : (checkEntries (parseImageHdrs (hdrNumImages S)
    ((S.take (hdrLength S)).drop hdrPart1Len)) ⟨0, 0, false, false, 0⟩).1 = streamHdrs S := rfl
  generalize parseImageHdrs (hdrNumImages S) ((S.take (hdrLength S)).drop hdrPart1Len) = raw
    at length hdrs ⊢
  cases checked : checkEntries raw ⟨0, 0, false, false, 0⟩ with
  | mk entries sums =>
    rw [checked] at hdrs
    obtain rfl : entries = streamHdrs S := hdrs
    dsimp only
    refine stays_bind (stays_update (T := fun s c _ => AtImages S offset len s c) (fun _ => rfl)
      fun s c _ h => ⟨h.1, h.2, congrArg (fun x => some x.1) checked⟩) stop fun _ => ?_
    rw [checked]
    cases sums with
    | none => exact stays_fail stop
    | some a =>
      have length : (streamHdrs S).length = hdrNumImages S :=
        (checkEntries_length checked).trans length
      refine stays_bind (atImages (Adopting.of (checkSums_steady a))) stop fun _ => ?_
      refine stays_bind (atImages dropConfigBuf_adopting) stop fun _ => stays_getCxt fun c => ?_
      refine .ite (fun full => ?_) fun same => ?_
      · -- The rest of the packet belongs to the images.
        apply Triple.of
        rintro s l ⟨hc, at_, blank⟩
        rw [Act.bind_ok (updateCxt_run hc _), Act.emit_run]
        refine ⟨_, rfl, announce_adopts inside images length raw at_ blank ?_⟩
        have other : hdrFormat S ≠ formatPartial := at_.format ▸ full
        simp only [afterHeader, if_neg other, at_.bufLen, at_.bufOffset]
      · refine .assume (fun s l h => h.2.1.format.symm.trans (not_not.mp same)) fun format => ?_
        have sift {α : Type} {m : M α} (h : Sifting m) :
            Triple (Blankly (AtImages S offset len)) m fun _ =>
              Blankly (AtImages S offset len) := by
          apply blankly_within h rfl fun _ => Event.apart_of_plain
          intro s t c d same h
          obtain ⟨hdrs, sifted⟩ := Prod.ext_iff.mp same
          exact h.sifted format hdrs sifted
        refine .pre ?_ fun s l h => (⟨⟨c, h.1, h.2.1⟩, h.2.2⟩ :
          Blankly (AtImages S offset len) s l)
        refine stays_bind (atImages (Adopting.of (malloc_steady _))) stop fun _ =>
          .ite (fun _ => stays_fail stop) fun _ => stays_bind (atImages .read) stop fun s => ?_
        refine stays_bind (sift (checkDownload_sifting ..)) stop fun _ =>
          stays_bind (atImages (Adopting.of (free_steady _))) stop fun _ =>
            stays_getCxt fun d => Triple.of ?_
        rintro s l ⟨hd, at_, blank⟩
        rw [Act.bind_ok (updateCxt_run hd _), Act.emit_run]
        exact ⟨_, rfl, announce_adopts inside images length raw at_ blank (if_pos format).symm⟩

/-- What a packet for the header comes to. -/
def Configured (S : List UInt8) (taken len : Nat) (r : Except Status Unit) (s : St)
    (l : List Event) : Prop :=
  match r with
  | .ok _ => Blankly (fun _ c => Heading S (taken + len) c ∧ c.bufOffset = len ∧
      c.fwUpgradeState = .receiveData) s l ∨
    ∃ n ≤ len, taken + n = hdrLength S ∧ taken < hdrLength S ∧ Adopts S n len (.ok ()) s l
  | .error _ => Blank l

theorem processConfigFile_configures (e : Env) {taken : Nat} {buf : Mem} {note : Nat → Event}
    (notes : ∀ n, (note n).apart = true) {c : Cxt} (heading : Heading S taken c)
    (inside : taken + c.bufLen ≤ S.length)
    (bytes : ∀ n ≤ c.bufLen, load buf 0 n = (S.drop taken).take n) :
    Triple (fun s l => s.cxt = some c ∧ Blank l) (processConfigFile e buf note)
      (Configured S taken c.bufLen) := by
  apply Sound.cleanUp (M := fun _ _ l => Blank l)
  · refine .andThen (receiveConfigFile_collects notes heading bytes) (fun _ _ _ h => h) ?_
    intro collected
    cases collected with
    | none => exact .pure () fun _ _ h => .inl h
    | some b =>
      change Triple _ (acceptConfigFile e b) _
      rintro s l ⟨rfl, images, enough, n, le, whole, headed⟩
      have within : hdrLength S ≤ S.length := by omega
      have before : taken < hdrLength S := by
        obtain ⟨rfl, -⟩ | ⟨-, -, -, before, -⟩ := heading.buffer
        · exact Nat.lt_of_lt_of_le (by decide) enough
        · exact before
      have adopts := @acceptConfigFile_adopts S e n c.bufLen within images enough
      obtain ⟨run, h⟩ := adopts s l headed
      apply And.intro run
      generalize (acceptConfigFile e (S.take (hdrLength S)) s).res = r at h ⊢
      cases r with
      | ok => exact .inr ⟨n, le, whole, before, h⟩
      | error => exact h
  · intro err
    exact Triple.of fun s l blank => blank.append fun w mem =>
      Event.apart_of_plain ((dropConfigBuf_adopting.run s).events w mem)

end Qapp.Fw
