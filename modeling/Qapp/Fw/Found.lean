import Qapp.Fw.Directory

/-!
# Images found in the table

Who looks up a downloaded image in the trial FWD comes to the bytes that were verified.
-/

namespace Qapp.Fw
open ByteMem Traced

variable {e : Env} {s t s₀ : St} {h h' l k : List Event} {c d : Cxt} {f i j : Nat}
  {client p q : Client} {rs : List (List UInt8)} {r : ImageHdr} {bytes : List UInt8}

/-! ## The place of an image -/

def Downloaded (l : List Event) (i : Nat) (r : ImageHdr) : Prop :=
  ∃ raw hdrs flags, .images raw hdrs flags ∈ l ∧ raw[i]? = some r ∧
    downloads flags i r.imageId = true

/-- Where the next image is to be stays until the session has moved to that image. -/
theorem Move.stays (m : Move e false (s, h) (t, h')) (late : Late s) (track : Track s₀ s h)
    (hc : s.cxt = some c) (first : c.isFirst = false) (hd : t.cxt = some d) :
    c.imageIndex < d.imageIndex ∨ d.imageIndex = c.imageIndex ∧
      (c.imageIndex < c.totalImages → d.trialMemStart = c.trialMemStart) := by
  have same (cxt : t.cxt = s.cxt) : c.imageIndex < d.imageIndex ∨ d.imageIndex = c.imageIndex ∧
      (c.imageIndex < c.totalImages → d.trialMemStart = c.trialMemStart) := by
    cases hc.symm.trans (cxt.symm.trans hd)
    exact .inr ⟨rfl, fun _ => rfl⟩
  have before {P : Prop} {state : FwState} (is : c.fwUpgradeState = state)
      (no : state.erased = false) : P := by
    have erased := ((track.cxt c hc).loaded first).1
    rw [is, no] at erased
    cases erased
  cases m with
  | quiet q => exact same q.cxt
  | note | reset | headerHash => exact same rfl
  | close => cases hd
  | attach hs k hc' first'
  | early imageHdr format count total sblStart sblSize sblIdx flags digest hc' first' =>
    cases hc.symm.trans hc'
    cases first.symm.trans first'
  | accept hc' erased accepts =>
    cases hc.symm.trans hc'
    cases first.symm.trans accepts.first
  | aim fwdIdx start size hc' state | select hc' state selected q other =>
    cases hc.symm.trans hc'
    exact before state rfl
  | erased hc' state lt possible ran =>
    cases hc.symm.trans hc'
    exact before state rfl
  | notErased hc' state lt bad possible ran | field hc' state first' lt header possible ran
  | validate hc' state lt possible ran | fde hc' state possible ran => exact same ran.cxt
  | bulk hc' state which found touches | dupWork hc' state part imageHdr hdr touches =>
    exact same touches.cxt
  | hide hc' state first' fwd hidden entered | noEntry hc' state fwd bad entered =>
    exact same entered.touches.cxt
  | skipTo index hc' state loose le skipped =>
    cases hc.symm.trans hc'
    cases hd
    obtain lt | eq := Nat.lt_or_eq_of_le le
    · exact .inl lt
    · exact .inr ⟨eq.symm, fun _ => rfl⟩
  | emptyFs1 hs hc' | complete hs hc' | skipEmpty hs hc' =>
    cases hc.symm.trans hc'
    cases hd
    exact .inl (Nat.lt_succ_self _)
  | dupNext hs hc' state =>
    cases hc.symm.trans hc'
    cases hd
    -- All images have been received by then.
    have all := (late c hc (by rw [state]; rfl)).2
    exact .inr ⟨rfl, fun lt => absurd all (Nat.not_le.mpr lt)⟩
  | detach hs hc' | tune bufLen bufOffset hidden config state hc' | begin hc' | lost bufOffset hc'
  | giveUp hs hc' | dupBegin hc' | dupPlace hs hc' | dupSkip hc' | place hs hc'
  | chunk bufOffset hc' | spoil bufOffset hc' =>
    cases hc.symm.trans hc'
    cases hd
    exact .inr ⟨rfl, fun _ => rfl⟩

/-- The partitions that have been created for an image begin at the same place. -/
structure Homes (s : St) (l : List Event) : Prop where
  whole : ∀ i r p, Downloaded l i r → .created i p ∈ l →
    p.imgStart % blockSize = 0 ∧ p.imgStart < 2 ^ 32
  same : ∀ i r p q, Downloaded l i r → .created i p ∈ l → .created i q ∈ l →
    p.imgStart = q.imgStart
  place : ∀ i r p c, Downloaded l i r → .created i p ∈ l → s.cxt = some c →
    i < c.imageIndex ∨
      i = c.imageIndex ∧ c.imageIndex < c.totalImages ∧ p.imgStart = c.trialMemStart

/-- What a move creates for a downloaded image. -/
structure Settles (c : Cxt) (i : Nat) (p : Client) : Prop where
  index : i = c.imageIndex
  lt : c.imageIndex < c.totalImages
  start : p.imgStart = c.trialMemStart
  aligned : p.imgStart % blockSize = 0
  small : p.imgStart < 2 ^ 32

theorem Move.settles (m : Move e false (s, h) (t, h ++ k)) (late : Late s) (track : Track s₀ s h)
    (proper : Proper e s₀ h) (fill : FillTrack s₀ s h) (down : Downloaded h i r)
    (created : .created i p ∈ k) : ∃ c, s.cxt = some c ∧ Settles c i p := by
  obtain ⟨raw, hdrs, flags, images, hr, down⟩ := down
  obtain ⟨k', eq, marks⟩ := m.marks
  cases List.append_cancel_left eq
  cases marks _ created with
  | other _ created => exact absurd rfl (created _ _)
  | @created c _ hc =>
    obtain ⟨k', eq, entering⟩ := m.entering late hc
    cases List.append_cancel_left eq
    cases fill.flags track hc images
    obtain ⟨flag, fs1, sbl⟩ := downloads_flag down
    cases entering with
    | none _ no => exact absurd created (no _ _)
    | entry => cases List.mem_singleton.mp created
    | @create client j u rest erased fwd first named homed entered entry no =>
      obtain ⟨⟩ | ⟨_, created⟩ := created
      obtain ⟨⟩ | ⟨_, created⟩ := created
      · obtain ⟨-, start, size, raw', hdrs', a, selected, loaded⟩ := (track.cxt c hc).loaded first
        obtain ⟨rfl, -⟩ := fill.one _ _ _ _ _ _ images loaded.images
        have id := (loaded.named (named hdrs' loaded.imageHdr)).1 r hr
        rw [Homed, id] at homed
        obtain ⟨at_, no | ⟨rfl, lt⟩⟩ := homed fs1 sbl
        · cases flag.symm.trans no
        · obtain ⟨-, hi⟩ := loaded.room (proper.fitting selected loaded) hr flag fs1 sbl
          have region := (proper.region _ _ _ selected).2
          have small := e.memSize_lt
          refine ⟨c, hc, rfl, lt, at_, ?_, by omega⟩
          exact (entered.placeable (by rw [id]; exact sbl)).1
      · exact absurd created (no _ _)

/-- The header comes before the images. -/
theorem Downloaded.before (m : Move e false (s, h) (t, h')) (fill : FillTrack s₀ s h)
    (listing : Listing s h) (down : Downloaded h' i r) (created : .created j p ∈ h') :
    Downloaded h i r := by
  obtain ⟨raw, hdrs, flags, images, hr, down⟩ := down
  by_cases old : .images raw hdrs flags ∈ h
  · exact ⟨raw, hdrs, flags, old, hr, down⟩
  · obtain ⟨eq, early, -⟩ := m.images fill images old
    rw [eq] at created
    obtain mem | mem := List.mem_append.mp created
    · obtain ⟨_, _, _, first, -⟩ := listing.named _ _ mem
      exact absurd rfl ((early _ first).images _ _ _)
    · cases List.mem_singleton.mp mem

theorem Homes.step (homes : Homes s h) (m : Move e false (s, h) (t, h')) (late : Late s)
    (track : Track s₀ s h) (proper : Proper e s₀ h) (fill : FillTrack s₀ s h)
    (listing : Listing s h) : Homes t h' := by
  obtain ⟨k, rfl, -⟩ := m.effects
  have early {i : Nat} {r : ImageHdr} {j : Nat} {p : Client} (down : Downloaded (h ++ k) i r)
      (created : .created j p ∈ h ++ k) : Downloaded h i r := down.before m fill listing created
  have new {i : Nat} {r : ImageHdr} {p : Client} (down : Downloaded h i r)
      (created : .created i p ∈ k) : ∃ c, s.cxt = some c ∧ Settles c i p :=
    m.settles late track proper fill down created
  -- A partition from before for the image that is being placed.
  have old {i : Nat} {r : ImageHdr} {p : Client} {c : Cxt} (down : Downloaded h i r)
      (created : .created i p ∈ h) (hc : s.cxt = some c) (now : i = c.imageIndex) :
      p.imgStart = c.trialMemStart := by
    obtain lt | ⟨-, -, start⟩ := homes.place i r p c down created hc
    · omega
    · exact start
  constructor
  · intro i r p down created
    have down := early down created
    obtain mem | mem := List.mem_append.mp created
    · exact homes.whole i r p down mem
    · obtain ⟨c, -, settles⟩ := new down mem
      exact ⟨settles.aligned, settles.small⟩
  · intro i r p q down created created'
    have down := early down created
    obtain mem | mem := List.mem_append.mp created
    · obtain mem' | mem' := List.mem_append.mp created'
      · exact homes.same i r p q down mem mem'
      · obtain ⟨c, hc, settles⟩ := new down mem'
        rw [settles.start]
        exact old down mem hc settles.index
    · obtain ⟨c, hc, settles⟩ := new down mem
      rw [settles.start]
      obtain mem' | mem' := List.mem_append.mp created'
      · exact (old down mem' hc settles.index).symm
      · obtain ⟨c', hc', settles'⟩ := new down mem'
        cases hc.symm.trans hc'
        exact settles'.start.symm
  · intro i r p d down created hd
    have down := early down created
    obtain ⟨c, hc⟩ := m.running hd
    obtain ⟨raw, hdrs, flags, images, -⟩ := id down
    have first := fill.first hc images
    have fixed := m.onward proper track hc first d hd
    have now : i < c.imageIndex ∨
        i = c.imageIndex ∧ c.imageIndex < c.totalImages ∧ p.imgStart = c.trialMemStart := by
      obtain mem | mem := List.mem_append.mp created
      · exact homes.place i r p c down mem hc
      · obtain ⟨c', hc', settles⟩ := new down mem
        cases hc.symm.trans hc'
        exact .inr ⟨settles.index, settles.lt, settles.start⟩
    have go := m.stays late track hc first hd
    rw [fixed.total]
    obtain lt | ⟨rfl, lt, start⟩ := now
    · have := fixed.index
      omega
    · obtain gone | ⟨index, keeps⟩ := go
      · exact .inl gone
      · rw [index, start, keeps lt]
        exact .inr ⟨rfl, lt, rfl⟩

/-! ## Lookups -/

/-- What an entry in flash says of where its partition begins. -/
theorem slot_imgStart {m : Mem} (slot : (imageEntries f).slot m j = p.record)
    (used : p.imgId < imageUnused) (sbl : p.imgId ≠ sblImgId)
    (aligned : p.imgStart % blockSize = 0) (small : p.imgStart < 2 ^ 32) :
    ((fwdEntry m f j).client f j).imgStart = p.imgStart := by
  have id : (fwdEntry m f j).imageId = p.imgId := by
    rw [← recordId_slot, slot, recordId_record used]
  have block : (fwdEntry m f j).startBlock = p.imgStart / blockSize := by
    have bytes : load m (entryAddr f j + 4) 4 = leBytes 4 (p.imgStart / blockSize) := by
      have inside := congrArg (fun r => (r.drop 4).take 4) slot
      simp only [Nor.Slots.slot, imageEntries_width, ← entryAddr_eq] at inside
      rw [drop_load m _ (by decide), take_load m _ (by decide)] at inside
      rw [inside, Client.record, entryBytes, if_pos sbl]
      simp [List.append_assoc, List.drop_left', List.take_left']
    have lt : p.imgStart / blockSize < 256 ^ 4 := Nat.lt_of_le_of_lt (Nat.div_le_self ..) small
    simp only [fwdEntry, word, bytes, leNat_leBytes, Nat.mod_eq_of_lt lt]
  have whole := Nat.div_mul_cancel (Nat.dvd_of_mod_eq_zero aligned)
  simp only [Entry.client, id, block, if_pos sbl, whole]
  exact Nat.mod_eq_of_lt small

/-- The ids of a header: each once, none of those that the session adds by itself. -/
structure Listable (raw : List ImageHdr) : Prop where
  distinct : ∀ (i j : Nat) (a b : ImageHdr), raw[i]? = some a → raw[j]? = some b →
    a.imageId = b.imageId → i = j
  shown : ∀ r ∈ raw, ¬isHidden r.imageId
  used : ∀ r ∈ raw, r.imageId < imageUnused

/-- The partition that is found for a downloaded image begins where the image has been put. -/
theorem Homes.lookup {raw hdrs : List ImageHdr} {flags : Nat → Bool} (homes : Homes s l)
    (listing : Listing s l) (images : .images raw hdrs flags ∈ l)
    (only : ∀ raw' hdrs' flags', .images raw' hdrs' flags' ∈ l → raw' = raw)
    (listable : Listable raw) (hr : raw[i]? = some r) (down : downloads flags i r.imageId = true)
    (created : .created i p ∈ l) (dir : directory l = some (f, rs)) :
    ∃ q, Lookup s.flash f r.imageId q ∧ q.imgStart = p.imgStart := by
  obtain ⟨-, fs1, sbl⟩ := downloads_flag down
  have used := listable.used r (List.mem_of_getElem? hr)
  have names {j : Nat} {q : Client} (created : .created j q ∈ l) : Named raw j q := by
    obtain ⟨raw', hdrs', flags', images', named⟩ := listing.named j q created
    exact only _ _ _ images' ▸ named
  obtain ⟨lt, holds⟩ := listing.table f rs dir
  -- The image's own entry is a hit, but the first hit may be another one.
  obtain ⟨j, found⟩ : ∃ j, entryOf s.flash f r.imageId = some j := by
    rw [entryOf_holds holds used]
    obtain ⟨g, rs', dir', -, at_⟩ := listing.created i p created
    cases dir.symm.trans dir'
    have id := (names created).1 r hr
    apply Option.isSome_iff_exists.mp
    rw [List.findIdx?_isSome, List.any_eq_true]
    refine ⟨p.record, List.mem_of_getElem? at_, ?_⟩
    rw [recordId_record (id ▸ used), id]
    exact beq_self_eq_true _
  have first := found
  rw [entryOf_holds holds used, List.findIdx?_eq_some_iff_getElem] at first
  obtain ⟨more, hit, -⟩ := first
  have at_ := List.getElem?_eq_getElem more
  obtain ⟨q, record, kind⟩ := listing.entries f rs j _ dir at_
  rw [beq_iff_eq, ← record] at hit
  have id : q.imgId = r.imageId ∧ .created i q ∈ l := by
    obtain hidden | ⟨i', created', -⟩ := kind
    · rw [recordId_record hidden.below] at hit
      exact absurd (hit ▸ hidden) (listable.shown r (List.mem_of_getElem? hr))
    · have named := names created'
      rw [recordId_record (named.below listable.used)] at hit
      cases hr' : raw[i']? with
      | none => exact absurd (hit.symm.trans (named.2 hr')) fs1
      | some r' =>
        cases listable.distinct i' i r' r hr' hr ((named.1 r' hr').symm.trans hit)
        exact ⟨hit, created'⟩
  obtain ⟨id, created'⟩ := id
  have downloaded : Downloaded l i r := ⟨raw, hdrs, flags, images, hr, down⟩
  obtain ⟨aligned, small⟩ := homes.whole i r q downloaded created'
  refine ⟨_, ⟨lt, j, found, rfl⟩, ?_⟩
  rw [slot_imgStart ((holds.full j _ at_).trans record.symm) (id ▸ used) (id ▸ sbl) aligned small]
  exact homes.same i r q p downloaded created' created

/-! ## The session -/

theorem homes_of_moves (moves : Moves e false (s, h) (t, h')) (late : Late s)
    (proper : Proper e s₀ h') (separate : Separate s₀ h') (acked : Acknowledged h') (used : Used h')
    (track : Track s₀ s h) (fill : FillTrack s₀ s h) (listing : Listing s h) (homes : Homes s h) :
    Homes t h' := by
  refine (invariant_of_step (I := fun x => Late x.1 ∧ (Proper e s₀ x.2 → Separate s₀ x.2 →
      Acknowledged x.2 → Used x.2 → Track s₀ x.1 x.2 ∧ FillTrack s₀ x.1 x.2 ∧ Listing x.1 x.2 ∧
        Homes x.1 x.2)) (fun x y h m => ?_) moves
    ⟨late, fun _ _ _ _ => ⟨track, fill, listing, homes⟩⟩).2 proper separate acked used |>.2.2.2
  obtain ⟨late, inv⟩ := h
  refine ⟨m.late late, fun proper' separate acked used => ?_⟩
  obtain ⟨k, eq, -⟩ := m.effects
  have sub : x.2 ⊆ y.2 := by
    rw [eq]
    exact fun _ mem => List.mem_append_left _ mem
  have proper : Proper e s₀ x.2 := by
    rw [eq] at proper'
    exact proper'.before
  obtain ⟨track, fill, listing, homes⟩ := inv proper (separate.mono sub) (acked.mono sub)
    fun raw hdrs flags mem => used raw hdrs flags (sub mem)
  have after := m.track proper late track
  exact ⟨after, fill.step m late track after proper proper' separate acked,
    listing.step m late track proper acked.entries used,
    homes.step m late track proper fill listing⟩

theorem Homes.blank (none : ∀ i p, .created i p ∉ l) : Homes s l :=
  ⟨fun i _ p _ mem => absurd mem (none i p), fun i _ p _ _ mem => absurd mem (none i p),
    fun i _ p _ _ mem => absurd mem (none i p)⟩

theorem Since.homes (since : Since e false s₀ s l) (proper : Proper e s₀ l)
    (separate : Separate s₀ l) (acked : Acknowledged l) (used : Used l) : Homes s l := by
  cases since with
  | idle none still notes =>
    refine .blank fun i p mem => ?_
    obtain ⟨n, ⟨⟩⟩ := notes _ mem
  | @moves s₁ k fresh still notes moves =>
    have events : ∀ w ∈ k ++ [.start], (∃ n, w = .note n) ∨ w = .start := by
      intro w mem
      obtain mem | mem := List.mem_append.mp mem
      · exact .inl (notes w mem)
      · exact .inr (List.mem_singleton.mp mem)
    have first : ∀ c, s₁.cxt = some c → c = freshCxt := fun c hc =>
      (Option.some.inj (fresh.symm.trans hc)).symm
    have track : Track s₀ s₁ (k ++ [.start]) := by
      refine .still still (fun who op out mem => ?_) first
      obtain ⟨n, ⟨⟩⟩ | ⟨⟨⟩⟩ := events _ mem
    have late : Late s₁ := .of_state fresh fun h => by cases h
    refine homes_of_moves moves late proper separate acked used track (.still fun w mem => ?_)
      (.blank events fun c hc => ?_) (.blank fun i p mem => ?_)
    · obtain ⟨n, rfl⟩ | rfl := events w mem
      · exact ⟨by rintro _ _ _ ⟨⟩, by rintro _ _ ⟨⟩, fun _ => rfl⟩
      · exact ⟨by rintro _ _ _ ⟨⟩, by rintro _ _ ⟨⟩, fun _ => rfl⟩
    · rw [first c hc]
      rfl
    · obtain ⟨n, ⟨⟩⟩ | ⟨⟨⟩⟩ := events _ mem

/-- What holds at any point of a session in which the device acknowledges its operations. -/
theorem Calls.tracked (calls : Calls e Fresh s₀ s l) (proper : Proper e s₀ l)
    (separate : Separate s₀ l) (acked : Acknowledged l) {raw hdrs : List ImageHdr}
    {flags : Nat → Bool} (images : .images raw hdrs flags ∈ l) (listable : Listable raw) :
    FillTrack s₀ s l ∧ Listing s l ∧ Homes s l := by
  have again : ∀ s p, Fresh s p → p.offset = 0 ∨ false = true ∨ NotBegun s :=
    fun s p h => h.imp_right .inr
  have since := (calls.since false again).2
  have fill := since.filled proper separate acked
  have used : Used l := by
    intro raw' hdrs' flags' images'
    obtain ⟨rfl, -⟩ := fill.one _ _ _ _ _ _ images images'
    exact listable.used
  exact ⟨fill, since.listing proper acked.entries used, since.homes proper separate acked used⟩

theorem Homes.found {raw hdrs : List ImageHdr} {flags : Nat → Bool} (homes : Homes s l)
    (listing : Listing s l) (fill : FillTrack s₀ s l) (images : .images raw hdrs flags ∈ l)
    (listable : Listable raw) (hr : raw[i]? = some r) (down : downloads flags i r.imageId = true)
    (hashed : .hashed (some i) bytes true ∈ l) :
    ∃ f rs data pad q, directory l = some (f, rs) ∧ bytes = data ++ pad ∧ (∀ b ∈ pad, b = 0xFF) ∧
      stored i l = some data ∧ Lookup s.flash f r.imageId q ∧
      load s.flash q.imgStart r.imageLength = data := by
  have only : ∀ raw' hdrs' flags', .images raw' hdrs' flags' ∈ l → raw' = raw :=
    fun raw' hdrs' flags' images' => (fill.one _ _ _ _ _ _ images images').1
  obtain ⟨client, filed, -⟩ := fill.past raw hdrs flags i r bytes images hr down hashed
  obtain ⟨data, pad, eq, ff, length, filling⟩ := filed.filled
  have created : .created i client ∈ l := by
    obtain ⟨before, after, rfl, -⟩ := filling.since
    exact List.mem_append_right _ (List.mem_cons_self ..)
  obtain ⟨f, rs, dir, -⟩ := listing.created i client created
  obtain ⟨q, found, start⟩ := homes.lookup listing images only listable hr down created dir
  refine ⟨f, rs, data, pad, q, dir, eq, ff, filling.stored, found, ?_⟩
  rw [start, ← length]
  exact filling.load_eq

/-- Once a downloaded image has been verified, the table of the trial FWD leads to it: the partition
that a lookup of its id finds begins with the bytes of the image, which are those it was verified
over but for the padding. -/
theorem verified_images_found (calls : Calls e Fresh s₀ s l) (proper : Proper e s₀ l)
    (separate : Separate s₀ l) (acked : Acknowledged l) {raw hdrs : List ImageHdr}
    {flags : Nat → Bool} (images : .images raw hdrs flags ∈ l) (listable : Listable raw)
    (hr : raw[i]? = some r) (down : downloads flags i r.imageId = true)
    (hashed : .hashed (some i) bytes true ∈ l) :
    ∃ f rs data pad q, directory l = some (f, rs) ∧ bytes = data ++ pad ∧ (∀ b ∈ pad, b = 0xFF) ∧
      stored i l = some data ∧ Lookup s.flash f r.imageId q ∧
      load s.flash q.imgStart r.imageLength = data := by
  obtain ⟨fill, listing, homes⟩ := calls.tracked proper separate acked images listable
  exact homes.found listing fill images listable hr down hashed

theorem listable_of_nodup {raw : List ImageHdr} (nodup : (raw.map ImageHdr.imageId).Nodup)
    (ids : ∀ r ∈ raw, ¬isHidden r.imageId ∧ r.imageId < imageUnused) : Listable raw where
  distinct i j a b ha hb same := by
    have hi : (raw.map ImageHdr.imageId)[i]? = some a.imageId := by rw [List.getElem?_map, ha]; rfl
    have hj : (raw.map ImageHdr.imageId)[j]? = some b.imageId := by rw [List.getElem?_map, hb]; rfl
    have lt := (List.getElem?_eq_some_iff.mp hi).1
    exact (List.getElem?_inj lt nodup).mp (hi.trans (same ▸ hj.symm))
  shown r mem := (ids r mem).1
  used r mem := (ids r mem).2

theorem plainImage_listable : Listable [plainImage appImgId blockSize 1] := by
  apply listable_of_nodup
  · decide
  · unfold isHidden
    decide

theorem plainRun_found : ∃ f rs data pad q, directory plainRun = some (f, rs) ∧ [7] = data ++ pad ∧
    (∀ b ∈ pad, b = 0xFF) ∧ stored 0 plainRun = some data ∧
    Lookup (sessionProcess plainEnv 40 (.of 0 plainUpload) plainDevice).state.flash f
      (plainImage appImgId blockSize 1).imageId q ∧
    load (sessionProcess plainEnv 40 (.of 0 plainUpload) plainDevice).state.flash q.imgStart
      (plainImage appImgId blockSize 1).imageLength = data := by
  have idle : Calls plainEnv Fresh plainDevice plainDevice [] := .idle rfl
  obtain ⟨acked, hdrs, flags, images, down, hashed⟩ := plainRun_verifies
  exact verified_images_found (idle.restart 40 (.of 0 plainUpload) rfl (.inl rfl)) plainRun_proper
    plainRun_separate acked images plainImage_listable rfl down hashed

end Qapp.Fw
