import Qapp.Fw.Flowing
import Qapp.Fw.Blind
import Qapp.Fw.Calls

/-!
# An upgrade packet by packet

Every image that is downloaded gets its own part of the stream: in a full upgrade whatever the
packets, in a partial one as long as no packet reaches over the end of the header.
-/

namespace Qapp.Fw
open ByteMem Traced

variable {e : Env} {S : List UInt8} {pos n taken : Nat} {p : Packet} {flags : Nat → Bool}
  {α : Type}

/-! ## After the last image -/

/-- The images to download are left alone. -/
def Event.leaves (flags : Nat → Bool) (w : Event) : Prop :=
  w.apart = true ∨ ∃ i client offset op out,
    w = .op (.image i client offset) op out ∧ flags i = false

/-- The flags stay, and the images to download are left alone. -/
structure LeftAlone (flags : Nat → Bool) (l : List Event) (t : St) : Prop where
  kept : ∀ d, t.cxt = some d → d.downloadFlag = flags
  events : ∀ w ∈ l, w.leaves flags

def leaving (flags : Nat → Bool) : Frame St Event where
  rel s l t := (∀ c, s.cxt = some c → c.downloadFlag = flags) → LeftAlone flags l t
  refl _ := fun same => ⟨same, fun _ mem => absurd mem List.not_mem_nil⟩
  trans := by
    intro s t u l k h h' same
    have first := h same
    have second := h' first.kept
    exact ⟨second.kept, fun w mem =>
      (List.mem_append.mp mem).elim (first.events w) (second.events w)⟩

theorem leaving_closing {m : M α} (h : Closing m) : Within (leaving flags) m := by
  constructor
  intro s same
  obtain ⟨plain, cxt, -⟩ := h.run s
  constructor
  · intro d hd
    obtain ⟨c, hc, kept, -⟩ := cxt d hd
    rw [← same c hc]
    exact eq_of_progress kept _ fun _ => rfl
  · exact fun w mem => .inl (Event.apart_of_plain (plain w mem))

theorem leaving_steady {m : M α} (h : Steady m) : Within (leaving flags) m :=
  leaving_closing (Closing.of h)

theorem leaving_updateCxt {f : Cxt → Cxt} (same : ∀ c, (f c).downloadFlag = c.downloadFlag) :
    Within (leaving flags) (updateCxt f) := by
  apply Within.update
  intro s kept
  constructor
  · intro d hd
    obtain ⟨c, hc, rfl⟩ := Option.map_eq_some_iff.mp hd
    exact (same c).trans (kept c hc)
  · exact fun _ mem => absurd mem List.not_mem_nil

/-- What reads the context may rely on the flags. -/
theorem leaving_getCxt {f : Cxt → M α}
    (rest : ∀ c, c.downloadFlag = flags → Within (leaving flags) (f c)) :
    Within (leaving flags) (getCxt >>= f) := by
  constructor
  intro s same
  cases hc : s.cxt with
  | none =>
    rw [Act.bind_run, getCxt_none hc, Act.andThen_error]
    exact (leaving flags).refl s same
  | some c =>
    rw [Act.bind_ok (getCxt_run hc)]
    exact (rest c (same c hc)).run s same

theorem copyImage_leaves (e : Env) {i : Nat} (unused : flags i = false) (hdl k offset : Nat) :
    Within (leaving flags) (copyImage e i hdl k offset) := by
  have emits (op : Op) (c : Client) (offset : Nat) (out : Outcome) :
      Within (leaving flags) (Act.emit (.op (issuer (some i) c offset) op out) : M Unit) :=
    .emit fun _ same => ⟨same, fun w mem =>
      .inr ⟨i, c, offset, op, out, List.mem_singleton.mp mem, unused⟩⟩
  induction k generalizing offset with
  | zero => exact .pure _
  | succ k ih =>
    exact .bind (leaving_steady (readPartition_steady ..)) fun ⟨_, _⟩ =>
      .bind (leaving_steady getCxt_steady) fun _ =>
        .bind (.orFail (leaving_steady (erasePartition_steady ..)) _) fun _ =>
          .bind (.orFail (writePartition_within leaving_steady e (fun _ _ _ => emits ..)
            fun _ _ _ => emits ..) _) fun _ => ih _

theorem duplicateImages_leaves (e : Env) (active : Nat) (imgs : List ImageHdr)
    (ret : Option Status) : Within (leaving flags) (duplicateImages e active imgs ret) := by
  induction imgs generalizing ret with
  | nil => exact .pure _
  | cons img imgs ih =>
    apply leaving_getCxt
    rintro c rfl
    by_cases copied : (!c.downloadFlag c.duplicateIndex && !isSpecial img.imageId) = true
    · have unused : c.downloadFlag c.duplicateIndex = false := by
        rw [Bool.and_eq_true, Bool.not_eq_true'] at copied
        exact copied.1
      rw [if_pos copied]
      refine .bind (.attempt (leaving_steady (findPartition_steady ..))) fun r => ?_
      cases r with
      | error => exact .pure _
      | ok hdl =>
        refine .bind (.attempt (leaving_steady (newPartition_steady ..))) fun r => ?_
        cases r with
        | error => exact .bind (leaving_steady (releaseHandle_steady _)) fun _ => .pure _
        | ok =>
          exact .bind (.attempt (copyImage_leaves e unused ..)) fun _ =>
            .bind (leaving_steady (releaseHandle_steady _)) fun _ =>
              .bind (leaving_steady releasePartition_steady) fun _ =>
                .bind (leaving_updateCxt fun _ => rfl) fun _ => ih _
    · rw [if_neg copied]
      exact .bind (leaving_updateCxt fun _ => rfl) fun _ => ih _

theorem processDuplicateImages_leaves (e : Env) :
    Within (leaving flags) (processDuplicateImages e) :=
  .bind .read fun _ => .bind (leaving_steady (malloc_steady _)) fun _ =>
    .ite (.bind (leaving_steady releasePartition_steady) fun _ => .fail _) <|
      .bind (leaving_updateCxt fun _ => rfl) fun _ => .bind (duplicateImages_leaves ..) fun ret =>
        .bind (leaving_steady releasePartition_steady) fun _ =>
          .bind (leaving_steady (free_steady _)) fun _ => by
            cases ret with
            | none => exact .pure _
            | some err => exact .fail _

theorem Ledger.leave {l k : List Event} (h : Ledger S flags taken l)
    (leaves : ∀ w ∈ k, w.leaves flags) : Ledger S flags taken (l ++ k) := by
  apply h.append
  · intro raw hdrs flags' mem
    obtain ⟨⟨⟩⟩ | ⟨_, _, _, _, _, ⟨⟩, _⟩ := leaves _ mem
  · intro i bytes equal mem
    obtain ⟨⟨⟩⟩ | ⟨_, _, _, _, _, ⟨⟩, _⟩ := leaves _ mem
  · intro i flag w mem
    obtain apart | ⟨j, client, offset, op, out, rfl, unused⟩ := leaves w mem
    · exact Event.chunk_of_apart apart i
    · have ne : j ≠ i := by
        rintro rfl
        rw [flag] at unused
        cases unused
      cases op with
      | erase => rfl
      | write | rramWrite => exact if_neg ne

/-- All images are complete; `taken` bytes of the stream have been used. -/
structure Whole (S : List UInt8) (flags : Nat → Bool) (taken : Nat) (l : List Event) : Prop where
  ledger : Ledger S flags taken l
  whole : ∀ i, flags i = true → imageStart S flags i + imageLen S i ≤ taken
  verified : ∀ i, Digested flags S i l

theorem Whole.leave {l k : List Event} (h : Whole S flags taken l)
    (leaves : ∀ w ∈ k, w.leaves flags) : Whole S flags taken (l ++ k) :=
  ⟨h.ledger.leave leaves, h.whole, fun i => (h.verified i).append k⟩

/-! ## Where a call stands -/

/-- Nothing of the packet is used, or all of it. -/
def Located (pos : Nat) (p : Packet) (taken : Nat) (c : Cxt) : Prop :=
  c.bufOffset = 0 ∧ taken = pos ∨ c.bufOffset = p.len ∧ taken = pos + p.len

/-- What the session loop finds in the course of a call. -/
inductive Phase (S : List UInt8) (pos : Nat) (p : Packet) (buffer : Buffer) (s : St) (c : Cxt)
    (l : List Event) : Prop
  | heading (taken : Nat) (heading : Heading S taken c) (blank : Blank l)
      (state : c.fwUpgradeState.passive = true) (placed : Located pos p taken c)
  | header (heading : Heading S pos c) (blank : Blank l)
      (state : c.fwUpgradeState = .processConfigFile) (bufLen : c.bufLen = p.len)
      (offset : c.bufOffset = 0) (start : buffer = some 0)
  | seeking (taken : Nat) (stands : Stands S taken c s c l) (paused : Paused S taken c)
      (state : c.fwUpgradeState = .disconnectServer ∨ c.fwUpgradeState = .prepareConnect)
      (placed : Located pos p taken c)
  | ready (taken : Nat) (stands : Stands S taken c s c l) (awaits : Awaits S taken c)
      (state : c.fwUpgradeState = .connect ∨ c.fwUpgradeState = .receiveData)
      (placed : Located pos p taken c)
  | image (taken : Nat) (stands : Stands S taken c s c l) (flows : Flows S pos p taken c)
      (start : hdrFormat S = formatPartial → c.bufOffset = 0)
  | last (taken : Nat) (whole : Whole S c.downloadFlag taken l)
      (state : c.fwUpgradeState.late = true) (lo : pos ≤ taken) (hi : taken ≤ pos + p.len)

/-- What a piece of code leaves behind, after which the loop goes on. -/
structure Led (S : List UInt8) (pos : Nat) (p : Packet) (buffer : Buffer)
    (r : Except Status α) (s : St) (l : List Event) : Prop where
  partly : Partly S pos p.len l
  phase : ∀ a, r = .ok a → ∀ c, s.cxt = some c → Phase S pos p buffer s c l

theorem Located.between {c : Cxt} (h : Located pos p taken c) :
    pos ≤ taken ∧ taken ≤ pos + p.len := by
  obtain ⟨-, rfl⟩ | ⟨-, rfl⟩ := h <;> omega

theorem Located.congr {c d : Cxt} (same : d.progress = c.progress) (h : Located pos p taken c) :
    Located pos p taken d := by
  have offset : d.bufOffset = c.bufOffset := eq_of_progress same _ fun _ => rfl
  rw [Located, offset]
  exact h

/-- Images that are not downloaded are passed over. -/
theorem Digested.skip {l : List Event} {i j : Nat} (h : Digested flags S i l)
    (skipped : ∀ m, i ≤ m → m < j → flags m = false) : Digested flags S j l := by
  intro m lt flag
  apply h m _ flag
  by_contra ge
  rw [skipped m (Nat.not_lt.mp ge) lt] at flag
  cases flag

/-- Behind the last image nothing is left to download. -/
theorem Digested.all {l : List Event} {i : Nat} (h : Digested flags S i l)
    (le : (streamHdrs S).length ≤ i) (j : Nat) : Digested flags S j l := by
  intro m _ flag some
  refine h m ?_ flag some
  by_contra ge
  rw [imageLen_of_le (Nat.le_trans le (Nat.not_lt.mp ge))] at some
  exact Nat.lt_irrefl 0 some

/-- Behind the last image nothing begins. -/
theorem imageStart_past {i j : Nat} (last : (streamHdrs S).length ≤ i) (le : i ≤ j) :
    imageStart S flags j = imageStart S flags i := by
  induction le with
  | refl => rfl
  | @step j le ih =>
    rw [imageStart, imageLen_of_le (Nat.le_trans last le), ih, ite_self]
    rfl

theorem imageEnd_last {i j : Nat} (last : (streamHdrs S).length ≤ i) (flag : flags j = true) :
    imageStart S flags j + imageLen S j ≤ imageStart S flags i := by
  obtain lt | ge := Nat.lt_or_ge j i
  · exact imageEnd_le flag lt
  · rw [imageStart_past last ge, imageLen_of_le (Nat.le_trans last ge)]
    exact Nat.le_refl _

theorem Paused.whole {s : St} {c : Cxt} {l : List Event} (h : Paused S taken c)
    (stands : Stands S taken c s c l) (last : c.totalImages ≤ c.imageIndex) :
    Whole S c.downloadFlag taken l := by
  have le : (streamHdrs S).length ≤ c.imageIndex := h.total ▸ last
  refine ⟨stands.ledger, fun i flag => ?_, stands.verified.all le⟩
  rw [h.used]
  exact imageEnd_last le flag

/-- What the loop goes on from. -/
theorem Stand.led {y : Cxt} {buffer : Buffer} {r : Except Status α} {s : St} {l : List Event}
    (h : Stand S pos p.len taken y s l)
    (phase : ∀ c, Stands S taken c s c l → c.progress = y.progress →
      c.fwUpgradeState = y.fwUpgradeState → Phase S pos p buffer s c l) :
    Led S pos p buffer r s l := by
  have rests : Rests S pos p.len taken (fun c => c.progress = y.progress ∧
      c.fwUpgradeState = y.fwUpgradeState) s l := h.rests fun _ same state => ⟨same, state⟩
  obtain ⟨⟨c, hc, stands, same, state⟩, partly⟩ := rests
  refine ⟨partly, fun _ _ d hd => ?_⟩
  obtain rfl := Option.some.inj (hc.symm.trans hd)
  exact phase c stands same state

/-- The part of `prepareConnect` behind the search: it goes on to the image the session is at,
or passes over it. -/
def seekImage (e : Env) (p : Packet) : M Unit := do
  let c ← getCxt
  let img ← readImageHdr p c.imageIndex
  if img.imageId = fs1ImgId ∧ img.imageLength = 0 then
    createFs1 e img
    releasePartition
    updateCxt fun c => { c with imageIndex := c.imageIndex + 1, fwUpgradeState := .prepareConnect }
  else if c.totalImages ≤ c.imageIndex then setState .duplicateImages
  else setState .connect

theorem seekImage_leads (e : Env) {x : Cxt} {buffer : Buffer} (paused : Paused S taken x)
    (located : Located pos p taken x)
    (found : x.imageIndex < x.totalImages → x.downloadFlag x.imageIndex = true) :
    Triple (Stand S pos p.len taken x) (seekImage e p) (Led S pos p buffer) := by
  have stop : ∀ err s l, Partly S pos p.len l →
      Led S pos p buffer (.error err : Except Status Unit) s l := fun _ _ _ h => ⟨h, by rintro _ ⟨⟩⟩
  apply stand_getCxt
  intro c same state
  replace paused := paused.congr same
  replace located := located.congr same
  replace found : c.imageIndex < c.totalImages → c.downloadFlag c.imageIndex = true := by
    rw [eq_of_progress same (fun c => c.imageIndex < c.totalImages →
      c.downloadFlag c.imageIndex = true) fun _ => rfl]
    exact found
  apply stand_readImageHdr
  refine .ite (fun empty => ?_) fun _ => .ite (fun last => ?_) fun more => ?_
  · have len : imageLen S c.imageIndex = 0 := by
      by_cases lt : c.imageIndex < (streamHdrs S).length
      · have hdr := List.getElem?_eq_getElem lt
        rw [imageLen_of_get hdr, ← empty.2, List.getD_eq_getElem?_getD, hdr]
        rfl
      · exact imageLen_of_le (Nat.not_lt.mp lt)
    have start : taken = imageStart S c.downloadFlag (c.imageIndex + 1) := by
      rw [imageStart, len, ite_self]
      exact paused.used
    have next : Triple (Stand S pos p.len taken c) (updateCxt fun c => { c with
          imageIndex := c.imageIndex + 1, fwUpgradeState := .prepareConnect })
        fun _ => Stand S pos p.len taken { c with
          imageIndex := c.imageIndex + 1, fwUpgradeState := .prepareConnect } :=
      stand_updateCxt (fun _ => rfl) rfl (fun _ _ => rfl) rfl fun _ h => h.empty len
    refine stand_bind (stand_steady (createFs1_steady ..)) stop fun _ =>
      stand_bind (stand_steady releasePartition_steady) stop fun _ => next.post fun r s l h =>
        h.led fun d stands same state => ?_
    have here : Paused S taken { c with
        imageIndex := c.imageIndex + 1, fwUpgradeState := .prepareConnect } :=
      ⟨⟨paused.first, paused.format, paused.total, paused.flags⟩, paused.idle, start⟩
    have there : Located pos p taken { c with
        imageIndex := c.imageIndex + 1, fwUpgradeState := .prepareConnect } := located
    exact .seeking taken stands (here.congr same) (.inr state) (there.congr same)
  · have ended : Triple (Stand S pos p.len taken c) (setState .duplicateImages)
        fun _ => Stand S pos p.len taken { c with fwUpgradeState := .duplicateImages } :=
      stand_updateCxt (fun _ => rfl) rfl (fun _ _ => rfl) rfl fun _ h => h
    refine ended.post fun r s l h => h.led fun d stands same state => ?_
    have here : Paused S taken { c with fwUpgradeState := .duplicateImages } :=
      ⟨⟨paused.first, paused.format, paused.total, paused.flags⟩, paused.idle, paused.used⟩
    replace last : d.totalImages ≤ d.imageIndex := by
      rw [eq_of_progress same Cxt.imageIndex fun _ => rfl,
        eq_of_progress same Cxt.totalImages fun _ => rfl]
      exact last
    have whole := (here.congr same).whole stands last
    exact .last taken whole (by rw [state]; rfl) located.between.1 located.between.2
  · have on : Triple (Stand S pos p.len taken c) (setState .connect)
        fun _ => Stand S pos p.len taken { c with fwUpgradeState := .connect } :=
      stand_updateCxt (fun _ => rfl) rfl (fun _ _ => rfl) rfl fun _ h => h
    refine on.post fun r s l h => h.led fun d stands same state => ?_
    have here : Awaits S taken { c with fwUpgradeState := .connect } := by
      refine ⟨⟨paused.first, paused.format, paused.total, paused.flags⟩,
        fun _ => ⟨paused.used, ?_, ?_⟩, fun busy => absurd paused.idle busy⟩
      · exact Nat.not_le.mp more
      · exact found (Nat.not_le.mp more)
    have there : Located pos p taken { c with fwUpgradeState := .connect } := located
    exact .ready taken stands (here.congr same) (.inl state) (there.congr same)

/-- `FW_UPGRADE_STATE_PREPARE_CONNECT_E` looks for the next image to download. -/
theorem prepareConnect_leads (e : Env) {x : Cxt} {buffer : Buffer} (paused : Paused S taken x)
    (located : Located pos p taken x) :
    Triple (Stand S pos p.len taken x) (prepareConnect e p) (Led S pos p buffer) := by
  have stop : ∀ err s l, Partly S pos p.len l →
      Led S pos p buffer (.error err : Except Status Unit) s l := fun _ _ _ h => ⟨h, by rintro _ ⟨⟩⟩
  apply stand_getCxt
  intro c same state
  replace paused := paused.congr same
  replace located := located.congr same
  clear same state
  rw [if_neg (by rw [paused.first]; exact Bool.false_ne_true)]
  obtain ⟨le, skipped, found⟩ := skipImages_spec c.downloadFlag c.totalImages c.totalImages
    c.imageIndex (Nat.le_add_left ..)
  have start : taken = imageStart S c.downloadFlag (skipImages c.downloadFlag c.totalImages
      c.totalImages c.imageIndex) := by
    rw [imageStart_skip le skipped]
    exact paused.used
  generalize index : skipImages c.downloadFlag c.totalImages c.totalImages c.imageIndex = i
    at le skipped found start
  have skip : Triple (Stand S pos p.len taken c) (updateCxt fun c => { c with
        imageIndex := skipImages c.downloadFlag c.totalImages c.totalImages c.imageIndex })
      fun _ => Stand S pos p.len taken { c with imageIndex := i } :=
    stand_updateCxt (fun _ => rfl) (by rw [index]) (fun _ h => h) rfl fun _ h => h.skip skipped
  have here : Paused S taken { c with imageIndex := i } :=
    ⟨⟨paused.first, paused.format, paused.total, paused.flags⟩, paused.idle, start⟩
  exact stand_bind skip stop fun _ => seekImage_leads e here located found

/-! ## One pass of the loop -/

/-- What there is between two calls: the first `pos` bytes of the stream have been used. -/
structure Fed (S : List UInt8) (pos : Nat) (s : St) (l : List Event) : Prop where
  used : Exact S pos l
  verified : AllVerified S pos l
  waiting : ∀ c, s.cxt = some c →
    Heading S pos c ∧ Blank l ∧ c.fwUpgradeState.passive = true ∨
    Stands S pos c s c l ∧ Awaits S pos c ∧
      (c.fwUpgradeState = .connect ∨ c.fwUpgradeState = .receiveData)

theorem Blank.partly {l : List Event} (h : Blank l) : Partly S pos n l :=
  ⟨pos, Nat.le_refl _, Nat.le_add_right _ _, .blank h⟩

theorem Blank.allVerified {l : List Event} (h : Blank l) : AllVerified S pos l :=
  fun _ _ _ mem => absurd (h _ mem) (by rintro ⟨⟩)

theorem Awaits.allVerified {s : St} {c : Cxt} {l : List Event} (h : Awaits S taken c)
    (stands : Stands S taken c s c l) : AllVerified S taken l := by
  intro raw hdrs flags mem i flag some end_
  obtain ⟨-, rfl⟩ := stands.ledger.only _ _ _ mem
  refine stands.verified i ?_ flag some
  by_contra ge
  have start : imageStart S c.downloadFlag c.imageIndex ≤ imageStart S c.downloadFlag i :=
    imageStart_mono (Nat.not_lt.mp ge)
  by_cases idle : c.imageWrtLength = 0
  · have used := (h.between idle).1
    omega
  · obtain ⟨midst, lt⟩ := h.current idle
    have used := midst.used
    have length := midst.length
    obtain lt | rfl := Nat.lt_or_eq_of_le (Nat.not_lt.mp ge)
    · have := imageEnd_le (S := S) midst.flag lt
      omega
    · omega

theorem Whole.allVerified {l : List Event} (h : Whole S flags taken l) : AllVerified S pos l := by
  intro raw hdrs flags' mem i flag some _
  obtain ⟨-, rfl⟩ := h.ledger.only _ _ _ mem
  exact h.verified (i + 1) i (Nat.lt_succ_self i) flag some

theorem Whole.exact {l : List Event} (h : Whole S flags taken l) (le : taken ≤ pos)
    (inside : pos ≤ S.length) : Exact S pos l :=
  (h.ledger.complete le inside h.whole).exact

/-- What one pass of the loop leaves behind. -/
def Stepped (S : List UInt8) (pos : Nat) (p : Packet) (r : Except Status (Option Buffer)) (s : St)
    (l : List Event) : Prop :=
  match r with
  | .ok (some buffer) => Led S pos p buffer (.ok ()) s l
  | .ok none => Fed S (pos + p.len) s l
  | .error _ => Partly S pos p.len l

theorem stepped_of_led {m : M Unit} {P : St → List Event → Prop} {buffer : Buffer}
    (h : Triple P m (Led S pos p buffer)) :
    Triple P (do
      m
      pure (some buffer)) (Stepped S pos p) :=
  .andThen h (fun _ _ _ led => led.partly) fun _ => .pure _ fun _ _ led =>
    ⟨led.partly, fun _ _ => led.phase () rfl⟩

/-- A header is waited for. -/
theorem heading_leads {m : M Unit} (h : Closing m) {c : Cxt} {buffer : Buffer}
    (heading : Heading S taken c) (state : c.fwUpgradeState.passive = true)
    (located : Located pos p taken c) :
    Triple (fun s l => s.cxt = some c ∧ Blank l) m (Led S pos p buffer) := by
  apply Triple.of
  rintro s l ⟨hc, blank⟩
  obtain ⟨plain, cxt, -⟩ := h.run s
  have blank' : Blank (l ++ (m s).trace) :=
    blank.append fun w mem => Event.apart_of_plain (plain w mem)
  refine ⟨blank'.partly, fun _ _ d hd => ?_⟩
  obtain ⟨c', hc', same, next⟩ := cxt d hd
  obtain rfl := Option.some.inj (hc.symm.trans hc')
  refine .heading taken (.congr same heading) blank' ?_ (located.congr same)
  obtain kept | passive := next
  · rw [kept]
    exact state
  · exact passive

/-- The last states: the images are left alone, and the next state is set. -/
theorem last_leads {m : M Unit} (h : Within (leaving flags) m) {next : FwState}
    (late : next.late = true) {buffer : Buffer} (lo : pos ≤ taken) (hi : taken ≤ pos + p.len) :
    Triple (fun s l => (∀ c, s.cxt = some c → c.downloadFlag = flags) ∧ Whole S flags taken l)
      (do
        m
        setState next) (Led S pos p buffer) := by
  have partly {l : List Event} (whole : Whole S flags taken l) : Partly S pos p.len l :=
    ⟨taken, lo, hi, whole.ledger.exact⟩
  refine .andThen (K := fun _ s l => (∀ c, s.cxt = some c → c.downloadFlag = flags) ∧
    Whole S flags taken l) (Triple.of ?_) (fun _ _ _ h => ⟨partly h.2, by rintro _ ⟨⟩⟩) fun _ =>
      Triple.of ?_
  · rintro s l ⟨same, whole⟩
    have left := h.run s same
    exact ⟨left.kept, whole.leave left.events⟩
  · rintro s l ⟨same, whole⟩
    have run : (setState next s).trace = [] := rfl
    rw [run, List.append_nil]
    refine ⟨partly whole, fun _ _ d hd => ?_⟩
    obtain ⟨c, hc, rfl⟩ := Option.map_eq_some_iff.mp hd
    refine .last taken ?_ late lo hi
    change Whole S c.downloadFlag taken l
    rw [same c hc]
    exact whole

/-- After the last step there is no session. -/
theorem sessionFinalize_ends (e : Env) :
    Triple (fun _ _ => True) (sessionFinalize e) fun r s _ => r = .ok () → s.cxt = none := by
  have stop : ∀ err (s : St) (l : List Event), True →
      (.error err : Except Status Unit) = .ok () → s.cxt = none := by rintro _ _ _ _ ⟨⟩
  have any {α : Type} (m : M α) : Triple (fun _ _ => True) m fun _ _ _ => True :=
    Triple.of fun _ _ _ => trivial
  refine .andThen (any _) stop fun c => .andThen (any _) stop fun _ =>
    .andThen (any _) stop fun _ =>
    .andThen (K := fun _ s _ => s.cxt = none) (Triple.of fun s l _ => ?_) ?_ fun _ => ?_
  · obtain ⟨hs, k, run, -⟩ := sessionFin_run true s
    rw [run]
  · rintro _ _ _ _ ⟨⟩
  · exact Triple.of fun s l none _ => none

/-- The packet does not reach over the end of the header. -/
def HeaderApart (S : List UInt8) (pos n : Nat) : Prop :=
  pos < hdrLength S → pos + n ≤ hdrLength S

/-- What follows the header in the packet belongs to the images, unless the upgrade is a partial
one. -/
theorem Adopted.phase {k : Nat} {buffer : Buffer} {s : St} {c : Cxt} {l : List Event}
    (h : Adopted S k p.len s c l) (le : k ≤ p.len) (whole : pos + k = hdrLength S)
    (before : pos < hdrLength S) (apart : hdrFormat S = formatPartial → HeaderApart S pos p.len) :
    Phase S pos p buffer s c l := by
  have onward := h.onward
  have offset := h.bufOffset
  unfold afterHeader at onward
  by_cases format : hdrFormat S = formatPartial
  · rw [if_pos format] at onward
    have all := apart format before
    exact .seeking _ h.toStands h.toPaused (.inl onward) (.inr ⟨by omega, by omega⟩)
  rw [if_neg format] at onward
  by_cases drained : p.len ≤ k
  · rw [if_pos drained] at onward
    have awaits : Awaits S (hdrLength S) c := ⟨h.toImaging,
      fun _ => ⟨h.used, h.ahead, h.flags format _⟩, fun busy => absurd h.idle busy⟩
    exact .ready _ h.toStands awaits (.inr onward) (.inr ⟨by omega, by omega⟩)
  · rw [if_neg drained] at onward
    have flows : Flows S pos p (hdrLength S) c :=
      h.toPaused.flows format h.ahead onward h.bufLen (by omega) (by omega)
    exact .image _ h.toStands flows fun partial_ => absurd partial_ format

section Steps
variable {s : St} {c : Cxt} {l : List Event} {buffer : Buffer}

/-- What one pass does in state `c`. -/
abbrev Steps (e : Env) (S : List UInt8) (pos : Nat) (p : Packet) (buffer : Buffer) (s : St)
    (l : List Event) : Prop :=
  Stepped S pos p (sessionStep e p buffer s).res (sessionStep e p buffer s).state
    (l ++ (sessionStep e p buffer s).trace)

theorem steps_receiveData (hc : s.cxt = some c) (state : c.fwUpgradeState = .receiveData)
    (located : Located pos p taken c) (carries : Carries S pos p)
    (rest : taken = pos + p.len → Fed S (pos + p.len) s l) (partly : Partly S pos p.len l)
    (read : taken = pos → Phase S pos p (some 0) (s.withCxt { c with
        bufLen := p.len
        bufOffset := 0
        fwUpgradeState := if c.isFirst then .processConfigFile else .processImage }) { c with
        bufLen := p.len
        bufOffset := 0
        fwUpgradeState := if c.isFirst then .processConfigFile else .processImage } l) :
    Steps e S pos p buffer s l := by
  have run : sessionStep e p buffer s = (if p.len - c.bufOffset = 0 then pure none
      else do
        updateCxt fun c => { c with
          bufLen := p.len - c.bufOffset
          bufOffset := 0
          fwUpgradeState := if c.isFirst then .processConfigFile else .processImage }
        pure (some (some c.bufOffset)) : M (Option Buffer)) s := by
    unfold sessionStep
    rw [Act.bind_ok (getCxt_run hc), state]
  unfold Steps
  rw [run]
  obtain ⟨start, rfl⟩ | ⟨end_, rfl⟩ := located
  · have more : ¬p.len - c.bufOffset = 0 := by
      have := carries.nonempty
      omega
    rw [if_neg more, Act.bind_ok (updateCxt_run hc _), Act.pure_run, List.append_nil, start,
      Nat.sub_zero]
    refine ⟨partly, fun _ _ d hd => ?_⟩
    cases hd
    exact read rfl
  · rw [if_pos (by rw [end_, Nat.sub_self]), Act.pure_run, List.append_nil]
    exact rest rfl

theorem steps_heading (hc : s.cxt = some c) (heading : Heading S taken c) (blank : Blank l)
    (passive : c.fwUpgradeState.passive = true) (located : Located pos p taken c)
    (carries : Carries S pos p) : Steps e S pos p buffer s l := by
  have led {m : M Unit} (h : Closing m) (run : sessionStep e p buffer s = (do
      m
      pure (some buffer) : M (Option Buffer)) s) : Steps e S pos p buffer s l := by
    unfold Steps
    rw [run]
    exact (stepped_of_led (heading_leads h heading passive located) s l ⟨hc, blank⟩).2
  have none {state : FwState} (is : c.fwUpgradeState = state) (no : state.passive = false) :
      Steps e S pos p buffer s l := by
    rw [is, no] at passive
    cases passive
  cases state : c.fwUpgradeState with
  | notStart => exact led (setState_closing rfl) (by
      unfold sessionStep
      rw [Act.bind_ok (getCxt_run hc), state])
  | getTrialInfo => exact led (getTrialInfo_closing e) (by
      unfold sessionStep
      rw [Act.bind_ok (getCxt_run hc), state])
  | eraseFwd => exact led (.bind (.orFail (Closing.of (eraseFwd_steady e c.trialFwdIdx)) _)
      fun _ => setState_closing rfl) (by
      unfold sessionStep
      rw [Act.bind_ok (getCxt_run hc), state, Act.bind_assoc])
  | eraseSecondFs => exact led (eraseSecondFs_closing e) (by
      unfold sessionStep
      rw [Act.bind_ok (getCxt_run hc), state])
  | prepareFs => exact led (prepareFs_closing e) (by
      unfold sessionStep
      rw [Act.bind_ok (getCxt_run hc), state])
  | prepareConnect => exact led (setState_closing rfl : Closing (setState .connect)) (by
      unfold sessionStep prepareConnect
      rw [Act.bind_ok (getCxt_run hc), state]
      simp only [Act.bind_assoc]
      rw [Act.bind_ok (getCxt_run hc), if_pos heading.first])
  | connect => exact led (setState_closing rfl) (by
      unfold sessionStep
      rw [Act.bind_ok (getCxt_run hc), state])
  | disconnectServer => exact led (setState_closing rfl) (by
      unfold sessionStep
      rw [Act.bind_ok (getCxt_run hc), state])
  | receiveData =>
    refine steps_receiveData hc state located carries ?_ blank.partly ?_
    · rintro rfl
      refine ⟨.blank blank, blank.allVerified, fun d hd => .inl ?_⟩
      obtain rfl := Option.some.inj (hc.symm.trans hd)
      exact ⟨heading, blank, passive⟩
    · rintro rfl
      refine .header ⟨heading.first, heading.index, heading.length, heading.flags, heading.buffer⟩
        blank ?_ rfl rfl rfl
      exact if_pos heading.first
  | processConfigFile | processImage | duplicateImages | duplicateFs | finish =>
    exact none state rfl

theorem steps_header (hc : s.cxt = some c) (heading : Heading S pos c) (blank : Blank l)
    (state : c.fwUpgradeState = .processConfigFile) (bufLen : c.bufLen = p.len)
    (carries : Carries S pos p) (apart : hdrFormat S = formatPartial → HeaderApart S pos p.len) :
    Steps e S pos p (some 0) s l := by
  have buffer : p.buffer (some 0) = p.data := by
    funext x
    change p.data (0 + x) = p.data x
    rw [Nat.zero_add]
  have run : sessionStep e p (some 0) s = (do
      processConfigFile e p.data (Buffer.note (some 0))
      pure (some (some 0)) : M (Option Buffer)) s := by
    unfold sessionStep
    rw [Act.bind_ok (getCxt_run hc), state, ← buffer]
  have bytes : ∀ n ≤ c.bufLen, load p.data 0 n = (S.drop pos).take n := by
    intro n le
    exact carries.bytes (by omega)
  have configures : Triple _ (processConfigFile e p.data (Buffer.note (some 0))) _ :=
    processConfigFile_configures e (fun _ => rfl) heading (by rw [bufLen]; exact carries.inside)
      bytes
  unfold Steps
  rw [run]
  refine (stepped_of_led (configures.post fun r s l h => ?_) s l ⟨hc, blank⟩).2
  cases r with
  | error => exact ⟨Blank.partly h, by rintro _ ⟨⟩⟩
  | ok =>
    rw [bufLen] at h
    obtain ⟨⟨d, hd, heading', offset, state'⟩, blank'⟩ | ⟨k, le, whole, before, d, hd, adopted⟩ := h
    · refine ⟨blank'.partly, fun _ _ d' hd' => ?_⟩
      obtain rfl := Option.some.inj (hd.symm.trans hd')
      exact .heading _ heading' blank' (by rw [state']; rfl) (.inr ⟨offset, rfl⟩)
    · refine ⟨⟨hdrLength S, Nat.le_of_lt before, by omega, adopted.ledger.exact⟩,
        fun _ _ d' hd' => ?_⟩
      obtain rfl := Option.some.inj (hd.symm.trans hd')
      exact adopted.phase le whole before apart

theorem steps_seeking (hc : s.cxt = some c) (stands : Stands S taken c s c l)
    (paused : Paused S taken c)
    (state : c.fwUpgradeState = .disconnectServer ∨ c.fwUpgradeState = .prepareConnect)
    (located : Located pos p taken c) : Steps e S pos p buffer s l := by
  have partly : Partly S pos p.len l := ⟨taken, located.between.1, located.between.2, stands.exact⟩
  have here : Stand S pos p.len taken c s l := ⟨⟨c, hc, stands⟩, partly⟩
  have led {m : M Unit} (h : Triple (Stand S pos p.len taken c) m (Led S pos p buffer))
      (run : sessionStep e p buffer s = (do
        m
        pure (some buffer) : M (Option Buffer)) s) : Steps e S pos p buffer s l := by
    unfold Steps
    rw [run]
    exact (stepped_of_led h s l here).2
  obtain state | state := state
  · have on : Triple (Stand S pos p.len taken c) (setState .prepareConnect)
        fun _ => Stand S pos p.len taken { c with fwUpgradeState := .prepareConnect } :=
      stand_updateCxt (fun _ => rfl) rfl (fun _ _ => rfl) rfl fun _ h => h
    refine led (on.post fun r s l h => h.led fun d stands same state => ?_) (by
      unfold sessionStep
      rw [Act.bind_ok (getCxt_run hc), ‹c.fwUpgradeState = .disconnectServer›])
    have there : Paused S taken { c with fwUpgradeState := .prepareConnect } :=
      ⟨⟨paused.first, paused.format, paused.total, paused.flags⟩, paused.idle, paused.used⟩
    have located : Located pos p taken { c with fwUpgradeState := .prepareConnect } := located
    exact .seeking taken stands (there.congr same) (.inr state) (located.congr same)
  · exact led (prepareConnect_leads e paused located) (by
      unfold sessionStep
      rw [Act.bind_ok (getCxt_run hc), state])

theorem steps_ready (hc : s.cxt = some c) (stands : Stands S taken c s c l)
    (awaits : Awaits S taken c)
    (state : c.fwUpgradeState = .connect ∨ c.fwUpgradeState = .receiveData)
    (located : Located pos p taken c) (carries : Carries S pos p) :
    Steps e S pos p buffer s l := by
  have partly : Partly S pos p.len l := ⟨taken, located.between.1, located.between.2, stands.exact⟩
  obtain state | state := state
  · have on : Triple (Stand S pos p.len taken c) (setState .receiveData)
        fun _ => Stand S pos p.len taken { c with fwUpgradeState := .receiveData } :=
      stand_updateCxt (fun _ => rfl) rfl (fun _ _ => rfl) rfl fun _ h => h
    have run : sessionStep e p buffer s = (do
        setState .receiveData
        pure (some buffer) : M (Option Buffer)) s := by
      unfold sessionStep
      rw [Act.bind_ok (getCxt_run hc), state]
    unfold Steps
    rw [run]
    refine (stepped_of_led (on.post fun r s l h => h.led fun d stands same state => ?_) s l
      ⟨⟨c, hc, stands⟩, partly⟩).2
    have there : Awaits S taken { c with fwUpgradeState := .receiveData } :=
      awaits.rebuffer c.bufLen c.bufOffset .receiveData
    have located : Located pos p taken { c with fwUpgradeState := .receiveData } := located
    exact .ready taken stands (there.congr same) (.inr state) (located.congr same)
  · refine steps_receiveData hc state located carries ?_ partly ?_
    · rintro rfl
      refine ⟨stands.exact, awaits.allVerified stands, fun d hd => .inr ?_⟩
      obtain rfl := Option.some.inj (hc.symm.trans hd)
      exact ⟨stands, awaits, .inr state⟩
    · rintro rfl
      have next : (if c.isFirst then FwState.processConfigFile else .processImage) =
        .processImage := by rw [awaits.first]; rfl
      rw [next]
      exact .image _ ⟨rfl, rfl, stands.hdrs, stands.ledger, stands.verified⟩
        ⟨awaits.rebuffer p.len 0 .processImage, rfl, rfl, rfl, Nat.zero_le _⟩ fun _ => rfl

/-- Behind the loop over the data the session waits for more of it, if there is more to come. -/
theorem awaiting_leads {x : Cxt} {buffer : Buffer} (awaits : Awaits S (pos + p.len) x)
    (state : x.fwUpgradeState = .processImage) (offset : x.bufOffset = p.len) :
    Triple (Stand S pos p.len (pos + p.len) x) (do
      Act.when (x.fwUpgradeState = .processImage) (setState .receiveData)
      pure (some buffer)) (Stepped S pos p) := by
  rw [Act.when_pos state]
  have on : Triple (Stand S pos p.len (pos + p.len) x) (setState .receiveData)
      fun _ => Stand S pos p.len (pos + p.len) { x with fwUpgradeState := .receiveData } :=
    stand_updateCxt (fun _ => rfl) rfl (fun _ _ => rfl) rfl fun _ h => h
  have there : Awaits S (pos + p.len) { x with fwUpgradeState := .receiveData } :=
    awaits.rebuffer x.bufLen x.bufOffset .receiveData
  have located : Located pos p (pos + p.len) { x with fwUpgradeState := .receiveData } :=
    .inr ⟨offset, rfl⟩
  refine .andThen on (fun _ _ _ h => h.2) fun _ => .pure _ fun s l h =>
    h.led fun d stands same state' => ?_
  exact .ready _ stands (there.congr same) (.inr state') (located.congr same)

/-- Nothing more happens behind the loop over the data in another state. -/
theorem settled_leads {x : Cxt} {buffer : Buffer} {lead : St → List Event → Prop}
    (other : x.fwUpgradeState ≠ .processImage)
    (led : ∀ s l, lead s l → Led S pos p buffer (.ok () : Except Status Unit) s l) :
    Triple lead (do
      Act.when (x.fwUpgradeState = .processImage) (setState .receiveData)
      pure (some buffer)) (Stepped S pos p) := by
  rw [Act.when_neg other]
  exact .pure (some buffer) led

/-- A packet of a partial upgrade. -/
theorem absorbed_leads {buffer : Buffer} (r : Unit) :
    Triple (fun s l => Absorbed S pos p.len (.ok r) s l) (do
      let c ← getCxt
      Act.when (c.fwUpgradeState = .processImage) (setState .receiveData)
      pure (some buffer)) (Stepped S pos p) := by
  refine rests_elim fun x passed => stand_getCxt fun y same state' => ?_
  replace passed := passed.congr same state'
  obtain ⟨state, paused⟩ | ⟨state, awaits⟩ := passed.next
  · refine settled_leads (by rw [state]; rintro ⟨⟩) fun s l
      (h : Stand S pos p.len (pos + p.len) y s l) => h.led fun d stands same state'' => ?_
    have located : Located pos p (pos + p.len) y := .inr ⟨passed.offset, rfl⟩
    exact .seeking _ stands (paused.congr same) (.inl (state''.trans state)) (located.congr same)
  · exact awaiting_leads awaits state passed.offset

/-- A packet of a full upgrade. -/
theorem flowed_leads {buffer : Buffer} (r : Unit) :
    Triple (fun s l => Flowed S pos p (.ok r) s l) (do
      let c ← getCxt
      Act.when (c.fwUpgradeState = .processImage) (setState .receiveData)
      pure (some buffer)) (Stepped S pos p) := by
  rintro s l ⟨taken, lo, hi, rests⟩
  refine rests_elim (fun x left => stand_getCxt fun y same state' => ?_) s l rests
  obtain ⟨flows, offset⟩ | concluded := left
  · replace flows := flows.congr same state'
    have offset : y.bufOffset = p.len := (eq_of_progress same _ fun _ => rfl).trans offset
    obtain rfl : taken = pos + p.len := offset ▸ flows.placed
    exact awaiting_leads flows.toAwaits flows.state offset
  · replace concluded := concluded.congr same state'
    refine settled_leads (by rw [concluded.state]; rintro ⟨⟩) fun s l
      (h : Stand S pos p.len taken y s l) => h.led fun d stands same state'' => ?_
    have here := concluded.congr same state''
    exact .last taken (here.whole stands here.last) (by rw [here.state]; rfl) lo hi

theorem steps_image (hc : s.cxt = some c) (stands : Stands S taken c s c l)
    (flows : Flows S pos p taken c) (start : hdrFormat S = formatPartial → c.bufOffset = 0)
    (carries : Carries S pos p) : Steps e S pos p buffer s l := by
  have placed := flows.placed
  have within := flows.within
  have partly : Partly S pos p.len l := ⟨taken, by omega, by omega, stands.exact⟩
  have run : sessionStep e p buffer s = (do
      processReceiveImage e p (c.bufLen + c.totalImages + 2)
      let c ← getCxt
      Act.when (c.fwUpgradeState = .processImage) (setState .receiveData)
      pure (some buffer) : M (Option Buffer)) s := by
    unfold sessionStep
    rw [Act.bind_ok (getCxt_run hc), flows.state]
  suffices h : Triple (Stand S pos p.len taken c) (do
      processReceiveImage e p (c.bufLen + c.totalImages + 2)
      let c ← getCxt
      Act.when (c.fwUpgradeState = .processImage) (setState .receiveData)
      pure (some buffer)) (Stepped S pos p) by
    unfold Steps
    rw [run]
    exact (h s l ⟨⟨c, hc, stands⟩, partly⟩).2
  by_cases format : hdrFormat S = formatPartial
  · obtain rfl : taken = pos := by rw [placed, start format, Nat.add_zero]
    exact .andThen (processReceiveImage_absorbs e _ carries format flows.toAwaits flows.bufLen
      flows.state) (fun _ _ _ h => h) absorbed_leads
  · have enough : passesLeft c < c.bufLen + c.totalImages + 2 := by
      unfold passesLeft
      omega
    exact .andThen (processReceiveImage_flows e carries format _ flows enough) (fun _ _ _ h => h)
      flowed_leads

theorem steps_last (hc : s.cxt = some c) (whole : Whole S c.downloadFlag taken l)
    (late : c.fwUpgradeState.late = true) (lo : pos ≤ taken) (hi : taken ≤ pos + p.len)
    (carries : Carries S pos p) : Steps e S pos p buffer s l := by
  have same : ∀ d, s.cxt = some d → d.downloadFlag = c.downloadFlag := by
    intro d hd
    rw [Option.some.inj (hc.symm.trans hd)]
  have led {m : M Unit} (h : Within (leaving c.downloadFlag) m) (next : FwState)
      (late : next.late = true) (run : sessionStep e p buffer s = (do
        m
        setState next
        pure (some buffer) : M (Option Buffer)) s) : Steps e S pos p buffer s l := by
    unfold Steps
    rw [run, ← Act.bind_assoc]
    exact (stepped_of_led (last_leads h late lo hi) s l ⟨same, whole⟩).2
  cases state : c.fwUpgradeState with
  | duplicateImages => exact led (processDuplicateImages_leaves e) .duplicateFs rfl (by
      unfold sessionStep
      rw [Act.bind_ok (getCxt_run hc), state])
  | duplicateFs => exact led (.when (leaving_steady (processDuplicateFs_steady e))) .finish rfl (by
      unfold sessionStep
      rw [Act.bind_ok (getCxt_run hc), state])
  | finish =>
    have run : sessionStep e p buffer s = (do
        sessionFinalize e
        pure none : M (Option Buffer)) s := by
      unfold sessionStep
      rw [Act.bind_ok (getCxt_run hc), state]
    have leaves : Within (leaving c.downloadFlag) (sessionFinalize e) :=
      leaving_closing (sessionFinalize_closing e)
    have left := leaves.run s same
    have whole' := whole.leave left.events
    have none := (sessionFinalize_ends e s l trivial).2
    unfold Steps
    rw [run, Act.bind_run]
    rcases run : sessionFinalize e s with ⟨_ | _, t, k⟩ <;> rw [run] at whole' none
    · exact ⟨taken, lo, hi, whole'.ledger.exact⟩
    · change Fed S (pos + p.len) t (l ++ (k ++ []))
      rw [List.append_nil]
      refine ⟨whole'.exact hi carries.inside, whole'.allVerified, fun d hd => ?_⟩
      rw [show t.cxt = .none from none rfl] at hd
      cases hd
  | notStart | getTrialInfo | eraseFwd | eraseSecondFs | prepareFs | prepareConnect | connect
  | receiveData | processConfigFile | processImage | disconnectServer =>
    rw [state] at late
    cases late

/-- One pass of the loop, whatever it finds. -/
theorem Phase.steps (phase : Phase S pos p buffer s c l) (hc : s.cxt = some c)
    (carries : Carries S pos p) (apart : hdrFormat S = formatPartial → HeaderApart S pos p.len) :
    Steps e S pos p buffer s l := by
  cases phase with
  | heading taken heading blank state placed =>
    exact steps_heading hc heading blank state placed carries
  | header heading blank state bufLen _ start =>
    cases start
    exact steps_header hc heading blank state bufLen carries apart
  | seeking taken stands paused state placed =>
    exact steps_seeking hc stands paused state placed
  | ready taken stands awaits state placed =>
    exact steps_ready hc stands awaits state placed carries
  | image taken stands flows start => exact steps_image hc stands flows start carries
  | last taken whole state lo hi => exact steps_last hc whole state lo hi carries

/-- The loop goes on in every phase. -/
theorem Phase.guard (phase : Phase S pos p buffer s c l) :
    c.bufOffset ≤ p.len ∨ c.fwUpgradeState.late = true := by
  have inside {taken : Nat} (placed : Located pos p taken c) : c.bufOffset ≤ p.len := by
    obtain ⟨start, -⟩ | ⟨end_, -⟩ := placed <;> omega
  cases phase with
  | heading _ _ _ _ placed => exact .inl (inside placed)
  | header _ _ _ _ offset _ => exact .inl (by omega)
  | seeking _ _ _ _ placed => exact .inl (inside placed)
  | ready _ _ _ _ placed => exact .inl (inside placed)
  | image _ _ flows _ => exact .inl flows.within
  | last _ _ state _ _ => exact .inr state

end Steps

/-! ## Whole calls -/

/-- What a call leaves behind. -/
structure Called (S : List UInt8) (pos n : Nat) (r : Except Status Bool) (s : St) (l : List Event) :
    Prop where
  partly : Partly S pos n l
  fed : r = .ok true → Fed S (pos + n) s l

theorem Partly.of_fed {s : St} {l : List Event} (h : Fed S (pos + n) s l) : Partly S pos n l :=
  ⟨pos + n, Nat.le_add_right _ _, Nat.le_refl _, h.used⟩

theorem sessionLoop_feeds (carries : Carries S pos p)
    (apart : hdrFormat S = formatPartial → HeaderApart S pos p.len) (fuel : Nat) {buffer : Buffer}
    {s : St} {l : List Event}
    (led : Led S pos p buffer (.ok () : Except Status Unit) s l) :
    Called S pos p.len (sessionLoop e p fuel buffer s).res (sessionLoop e p fuel buffer s).state
      (l ++ (sessionLoop e p fuel buffer s).trace) := by
  induction fuel generalizing buffer s l with
  | zero =>
    change Called S pos p.len (.ok false) s (l ++ [])
    rw [List.append_nil]
    exact ⟨led.partly, by rintro ⟨⟩⟩
  | succ fuel ih =>
    unfold sessionLoop
    cases hc : s.cxt with
    | none =>
      rw [Act.bind_run, getCxt_none hc, Act.andThen_error, List.append_nil]
      exact ⟨led.partly, by rintro ⟨⟩⟩
    | some c =>
      have phase := led.phase () rfl c hc
      have step : Stepped S pos p (sessionStep e p buffer s).res (sessionStep e p buffer s).state
        (l ++ (sessionStep e p buffer s).trace) := phase.steps hc carries apart
      rw [Act.bind_ok (getCxt_run hc), if_pos phase.guard, Act.bind_run]
      rcases run : sessionStep e p buffer s with ⟨_ | _ | buffer', t, k⟩ <;> rw [run] at step
      · exact ⟨step, by rintro ⟨⟩⟩
      · change Called S pos p.len (.ok true) t (l ++ (k ++ []))
        rw [List.append_nil]
        exact ⟨.of_fed step, fun _ => step⟩
      · rw [Act.andThen_ok]
        change Called S pos p.len _ _ (l ++ (k ++ _))
        rw [← List.append_assoc]
        exact ih step

/-- The loop is entered with the packet untouched. -/
theorem enters_feeds (carries : Carries S pos p)
    (apart : hdrFormat S = formatPartial → HeaderApart S pos p.len) (fuel : Nat) {s : St}
    {l : List Event} (partly : Partly S pos p.len l)
    (phase : ∀ c, s.cxt = some c → Phase S pos p none (s.withCxt { c with bufOffset := 0 })
      { c with bufOffset := 0 } l) :
    Called S pos p.len
      ((do
        let _ ← getCxt
        updateCxt fun c => { c with bufOffset := 0 }
        sessionLoop e p fuel none : M Bool) s).res
      ((do
        let _ ← getCxt
        updateCxt fun c => { c with bufOffset := 0 }
        sessionLoop e p fuel none : M Bool) s).state
      (l ++ ((do
        let _ ← getCxt
        updateCxt fun c => { c with bufOffset := 0 }
        sessionLoop e p fuel none : M Bool) s).trace) := by
  cases hc : s.cxt with
  | none =>
    rw [Act.bind_run, getCxt_none hc, Act.andThen_error, List.append_nil]
    exact ⟨partly, by rintro ⟨⟩⟩
  | some c =>
    rw [Act.bind_ok (getCxt_run hc), Act.bind_ok (updateCxt_run hc _)]
    apply sessionLoop_feeds carries apart
    refine ⟨partly, fun _ _ d hd => ?_⟩
    cases hd
    exact phase c hc

theorem Notes.blank {l : List Event} (h : Notes l) : Blank l := by
  intro w mem
  obtain ⟨note, rfl⟩ := h w mem
  rfl

/-- The first packet begins a session. -/
theorem sessionProcess_starts (carries : Carries S 0 p)
    (apart : hdrFormat S = formatPartial → HeaderApart S 0 p.len) (fuel : Nat) (s : St) :
    Called S 0 p.len (sessionProcess e fuel p s).res (sessionProcess e fuel p s).state
      (sessionProcess e fuel p s).trace := by
  have begins := sessionInit_begins e s
  unfold BeginsFrom at begins
  rw [List.nil_append] at begins
  unfold sessionProcess
  rw [Act.when_pos carries.offset, Act.bind_run]
  rcases run : sessionInit e s with ⟨r, t, l⟩
  rw [run] at begins
  cases begins with
  | error none still notes =>
    rw [Act.orFail_error run, Act.andThen_error]
    exact ⟨notes.blank.partly, by rintro ⟨⟩⟩
  | @ok _ k cxt init still notes =>
    rw [Act.orFail_ok run, Act.andThen_ok]
    have blank : Blank (k ++ [.start]) := notes.blank.snoc rfl
    refine enters_feeds carries apart fuel blank.partly fun c hc => ?_
    obtain rfl := Option.some.inj (cxt.symm.trans hc)
    exact .heading 0 ⟨rfl, rfl, rfl, fun _ => rfl, .inl ⟨rfl, rfl⟩⟩ blank rfl (.inl ⟨rfl, rfl⟩)

/-- A later packet goes on with the session. -/
theorem sessionProcess_resumes (carries : Carries S pos p)
    (apart : hdrFormat S = formatPartial → HeaderApart S pos p.len) (fuel : Nat) {s : St}
    {l : List Event} (later : 0 < pos) (fed : Fed S pos s l) :
    Called S pos p.len (sessionProcess e fuel p s).res (sessionProcess e fuel p s).state
      (l ++ (sessionProcess e fuel p s).trace) := by
  have offset : p.offset ≠ 0 := by
    rw [carries.offset]
    exact Nat.ne_of_gt later
  unfold sessionProcess
  rw [Act.when_neg offset, Act.bind_ok (Act.pure_run () s)]
  have partly : Partly S pos p.len l := ⟨pos, Nat.le_refl _, Nat.le_add_right _ _, fed.used⟩
  refine enters_feeds carries apart fuel partly fun c hc => ?_
  obtain ⟨heading, blank, passive⟩ | ⟨stands, awaits, state⟩ := fed.waiting c hc
  · have here : Heading S pos { c with bufOffset := 0 } :=
      ⟨heading.first, heading.index, heading.length, heading.flags, heading.buffer⟩
    exact .heading pos here blank passive (.inl ⟨rfl, rfl⟩)
  · exact .ready pos ⟨rfl, rfl, stands.hdrs, stands.ledger, stands.verified⟩
      (awaits.rebuffer c.bufLen 0 c.fwUpgradeState) state (.inl ⟨rfl, rfl⟩)

section Feeds
variable {ok : Nat → Nat → Prop}
  (met : ∀ pos n, ok pos n → hdrFormat S = formatPartial → HeaderApart S pos n)
include met

/-- Before the first packet there is nothing, after it there is what has been fed. -/
theorem Feed.fed {s : St} {l : List Event} (feed : Feed e S ok s pos l) :
    pos = 0 ∧ l = [] ∨ 0 < pos ∧ Fed S pos s l := by
  induction feed with
  | idle => exact .inl ⟨rfl, rfl⟩
  | packet feed fuel p carries allowed done ih =>
    have nonempty := carries.nonempty
    have apart := met _ _ allowed
    refine .inr ⟨by omega, ?_⟩
    obtain ⟨rfl, rfl⟩ | ⟨later, fed⟩ := ih
    · exact (sessionProcess_starts carries apart fuel _).fed done
    · exact (sessionProcess_resumes carries apart fuel later fed).fed done

theorem Feed.exact {s : St} {l : List Event} (feed : Feed e S ok s pos l) (fuel : Nat)
    (carries : Carries S pos p) (apart : hdrFormat S = formatPartial → HeaderApart S pos p.len) :
    Exact S pos l ∧ AllVerified S pos l ∧
      Partly S pos p.len (l ++ (sessionProcess e fuel p s).trace) := by
  obtain ⟨rfl, rfl⟩ | ⟨later, fed⟩ := feed.fed met
  · exact ⟨.blank fun _ mem => absurd mem List.not_mem_nil,
      fun _ _ _ mem => absurd mem List.not_mem_nil,
      (sessionProcess_starts carries apart fuel s).partly⟩
  · exact ⟨fed.used, fed.verified,
      (sessionProcess_resumes carries apart fuel later fed).partly⟩

end Feeds

/-- Whatever the packets, as long as none reaches over the end of the header: for each image to
download exactly its part of the stream is stored, what is hashed is all of it, and the hash of
every image that is complete has been found right. A call that fails leaves it so. -/
theorem partial_upgrade_exact {s : St} {l : List Event} (feed : Feed e S (HeaderApart S) s pos l)
    (fuel : Nat) (carries : Carries S pos p) (apart : HeaderApart S pos p.len) :
    Exact S pos l ∧ AllVerified S pos l ∧
      Partly S pos p.len (l ++ (sessionProcess e fuel p s).trace) :=
  feed.exact (fun _ _ met _ => met) fuel carries fun _ => apart

theorem Carries.of {bytes : List UInt8} (nonempty : bytes ≠ [])
    (part : (S.drop pos).take bytes.length = bytes) : Carries S pos (.of pos bytes) where
  offset := rfl
  nonempty := List.length_pos_iff.mpr nonempty
  inside := by
    have := List.length_pos_iff.mpr nonempty
    have length := congrArg List.length part
    rw [List.length_take, List.length_drop] at length
    change pos + bytes.length ≤ S.length
    omega
  data := by
    rw [Packet.of, part, load_eq_iff]
    intro i _
    rw [Nat.zero_add]

theorem Carries.slice (n : Nat) (nonempty : (S.drop pos).take n ≠ []) :
    Carries S pos (.of pos ((S.drop pos).take n)) :=
  .of nonempty (by rw [List.length_take, ← List.take_eq_take_min])

/-- Two images that the device does not have, after their header. -/
def pairUpload : List UInt8 :=
  encodedHeader formatPartial [plainImage 77 blockSize 3, plainImage 78 blockSize 2] ++
    [7, 8, 9, 5, 6]

def pairHeader : Packet := .of 0 (pairUpload.take 417)

theorem ok_of_toOption {r : Except Status α} {a : α} (h : r.toOption = some a) : r = .ok a := by
  cases r with
  | error => cases h
  | ok => exact congrArg Except.ok (Option.some.inj h)

def pairFirst : Traced.Out St Event Status Bool :=
  sessionProcess plainEnv 40 pairHeader plainDevice

def pairSecond : Traced.Out St Event Status Bool :=
  sessionProcess plainEnv 40 (.of 417 [7, 8, 9]) pairFirst.state

def pairThird : Traced.Out St Event Status Bool :=
  sessionProcess plainEnv 40 (.of 420 [5]) pairSecond.state

def pairTrace : List Event := [] ++ pairFirst.trace ++ pairSecond.trace ++ pairThird.trace

/-- One image is complete and one is not. -/
theorem pairUpload_exact : Exact pairUpload 421 pairTrace ∧ AllVerified pairUpload 421 pairTrace ∧
    Partly pairUpload 421 1
      (pairTrace ++ (sessionProcess plainEnv 40 (.of 421 [6]) pairThird.state).trace) := by
  have length : hdrLength pairUpload = 417 := by decide
  have behind : ∀ {pos n : Nat}, 417 ≤ pos → HeaderApart pairUpload pos n := by
    intro pos n le lt
    rw [length] at lt
    omega
  have first : Carries pairUpload 0 pairHeader := .slice 417 nofun
  have second : Carries pairUpload 417 (.of 417 [7, 8, 9]) := .of nofun rfl
  have third : Carries pairUpload 420 (.of 420 [5]) := .of nofun rfl
  have last : Carries pairUpload 421 (.of 421 [6]) := .of nofun rfl
  have ⟨returned, returned₂, returned₃⟩ : pairFirst.res.toOption = some true ∧
      pairSecond.res.toOption = some true ∧ pairThird.res.toOption = some true := by
    decide +kernel
  have idle : Feed plainEnv pairUpload (HeaderApart pairUpload) plainDevice 0 [] :=
    .idle plainDevice
  have len : 0 + pairHeader.len = 417 := by decide +kernel
  have feed := idle.packet 40 pairHeader first (fun _ => by rw [length, len])
    (ok_of_toOption returned)
  rw [len] at feed
  have feed := feed.packet 40 (.of 417 [7, 8, 9]) second (behind (by decide))
    (ok_of_toOption returned₂)
  have feed := feed.packet 40 (.of 420 [5]) third (behind (by decide)) (ok_of_toOption returned₃)
  exact partial_upgrade_exact feed 40 last (behind (by decide))

/-- In a full upgrade this holds whatever the packets. -/
theorem full_upgrade_exact {s : St} {l : List Event} (format : hdrFormat S ≠ formatPartial)
    (feed : Feed e S (fun _ _ => True) s pos l) (fuel : Nat) (carries : Carries S pos p) :
    Exact S pos l ∧ AllVerified S pos l ∧
      Partly S pos p.len (l ++ (sessionProcess e fuel p s).trace) :=
  feed.exact (fun _ _ _ is => absurd is format) fuel carries fun is => absurd is format

def fullSplit : Traced.Out St Event Status Bool :=
  sessionProcess plainEnv 40 fullFirst plainDevice

def fullLate : Traced.Out St Event Status Bool :=
  sessionProcess plainEnv 40 fullSecond fullSplit.state

def fullTrace : List Event := [] ++ fullSplit.trace ++ fullLate.trace

theorem fullThird_carries : Carries fullUpload 421 fullThird := .of nofun rfl

theorem fullUpload_feed {ok : Nat → Nat → Prop} (allowed : ∀ pos n, ok pos n) :
    Feed plainEnv fullUpload ok fullLate.state 421 fullTrace := by
  have first : Carries fullUpload 0 fullFirst := .slice 200 nofun
  have second : Carries fullUpload 200 fullSecond := .slice 221 nofun
  have ⟨returned, returned₂⟩ : fullSplit.res.toOption = some true ∧
      fullLate.res.toOption = some true := by
    decide +kernel
  have idle : Feed plainEnv fullUpload ok plainDevice 0 [] := .idle plainDevice
  have feed := idle.packet 40 fullFirst first (allowed _ _) (ok_of_toOption returned)
  rw [show 0 + fullFirst.len = 200 by decide +kernel] at feed
  have feed := feed.packet 40 fullSecond second (allowed _ _) (ok_of_toOption returned₂)
  rwa [show 200 + fullSecond.len = 421 by decide +kernel] at feed

/-- A packet has the end of the header, all of one image and a byte of the next. -/
theorem fullUpload_exact : Exact fullUpload 421 fullTrace ∧ AllVerified fullUpload 421 fullTrace ∧
    Partly fullUpload 421 1
      (fullTrace ++ (sessionProcess plainEnv 40 fullThird fullLate.state).trace) :=
  full_upgrade_exact (by decide) (fullUpload_feed fun _ _ => trivial) 40 fullThird_carries

/-- An image of three bytes that the device does not have, after its header. -/
def newUpload : List UInt8 := encodedHeader formatPartial [plainImage 77 blockSize 3] ++ [7, 8, 9]

def Event.hashesHeader : Event → Bool
  | .hashed (some 0) (byte :: _) _ => byte == 70
  | _ => false

/-- A packet that goes on behind the header has its first bytes stored again, as the image. -/
theorem header_stored_as_image :
    ¬∀ (e : Env) (S : List UInt8) (s : St) (pos : Nat) (l : List Event),
      hdrFormat S = formatPartial → Feed e S (fun _ _ => True) s pos l → Exact S pos l := by
  intro exact_
  have carries : Carries newUpload 0 (.of 0 newUpload) := .of nofun List.take_length
  have ⟨returned, hashed⟩ :
      (sessionProcess plainEnv 40 (.of 0 newUpload) plainDevice).res.toOption = some true ∧
      (sessionProcess plainEnv 40 (.of 0 newUpload) plainDevice).trace.any
        Event.hashesHeader = true := by
    decide +kernel
  have feed := (Feed.idle plainDevice : Feed plainEnv newUpload (fun _ _ => True) _ 0 []).packet
    40 (.of 0 newUpload) carries trivial (ok_of_toOption returned)
  obtain ⟨w, mem, header⟩ := List.any_eq_true.mp hashed
  have used := exact_ _ _ _ _ _ (by decide) feed
  cases w with
  | hashed i bytes equal =>
    match i, bytes with
    | some 0, byte :: bytes =>
      obtain ⟨raw, flags, -, -, -, same⟩ := used.hashed 0 _ _ mem
      have part : imagePart newUpload flags (0 + (Packet.of 0 newUpload).len) 0 = [7, 8, 9] := by
        rw [imagePart, imageStart]
        decide +kernel
      have first := congrArg List.head? same
      rw [part] at first
      cases first
      cases header
  | _ => cases header

end Qapp.Fw
