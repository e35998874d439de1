import Qapp.Fw.Contain

/-!
# Keeping to the areas

Every move keeps the session in its areas, as long as the header fits.
-/

namespace Qapp.Fw
open ByteMem Traced
open Relation (ReflTransGen)

variable {e : Env} {retry : Bool}

/-! ## What operations leave alone -/

theorem Op.run_flash {op : Op} {x : Nat}
    (apart : ∀ a n, op.flashRange = some (a, n) → x < a ∨ a + n ≤ x) (out : Outcome) (s : St) :
    (op.run out s).flash x = s.flash x := by
  cases op with
  | erase a n =>
    cases out with
    | done => exact Nor.erase_outside _ (apart _ _ rfl)
    | failed left => exact Nor.damage_outside _ _ (apart _ _ rfl)
    | rejected => rfl
  | write a bs =>
    cases out with
    | done => exact Nor.program_outside _ (apart _ _ rfl)
    | failed left => exact Nor.damage_outside _ _ (apart _ _ rfl)
    | rejected => rfl
  | rramWrite a bs => cases out <;> rfl

theorem Op.run_rram {op : Op} {x : Nat}
    (apart : ∀ a bs, op = .rramWrite a bs → x < a ∨ a + bs.length ≤ x) (out : Outcome) (s : St) :
    (op.run out s).rram x = s.rram x := by
  cases op with
  | erase a n => cases out <;> rfl
  | write a bs => cases out <;> rfl
  | rramWrite a bs =>
    cases out with
    | done => exact store_apply_of_not_mem _ (apart _ _ rfl)
    | failed left => exact Nor.damage_outside _ _ (apart _ _ rfl)
    | rejected => rfl

theorem replay_flash {k : List Event} {x : Nat}
    (apart : ∀ w o r, .op w o r ∈ k → ∀ a n, o.flashRange = some (a, n) → x < a ∨ a + n ≤ x)
    (s : St) : (replay s k).flash x = s.flash x := by
  induction k generalizing s with
  | nil => rfl
  | cons v k ih =>
    have rest := ih fun w o r mem => apart w o r (List.mem_cons_of_mem _ mem)
    cases v with
    | op w o r =>
      exact (rest _).trans (Op.run_flash (apart w o r (List.mem_cons_self ..)) r s)
    | _ => exact rest s

theorem replay_rram {k : List Event} {x : Nat}
    (apart : ∀ w o r, .op w o r ∈ k → ∀ a bs, o = .rramWrite a bs → x < a ∨ a + bs.length ≤ x)
    (s : St) : (replay s k).rram x = s.rram x := by
  induction k generalizing s with
  | nil => rfl
  | cons v k ih =>
    have rest := ih fun w o r mem => apart w o r (List.mem_cons_of_mem _ mem)
    cases v with
    | op w o r =>
      exact (rest _).trans (Op.run_rram (apart w o r (List.mem_cons_self ..)) r s)
    | _ => exact rest s

theorem partition_not {t : St} {c : Cxt} {client : Client} {P : Prop} (hc : t.cxt = some c)
    (hdl : c.partitionHdl = none) (hp : t.partition = some client) : P := by
  rw [partition_free hc hdl] at hp
  cases hp

/-! ## What a move keeps -/

/-- The selected FWD is the trial of this session. -/
def Cxt.aimed (c : Cxt) : Prop := c.fwUpgradeState = .eraseFwd ∨ c.fwUpgradeState.erased = true

/-- The session goes on towards its end. -/
structure Forth (c c' : Cxt) : Prop where
  fwd : c'.trialFwdIdx = c.trialFwdIdx
  first : c'.isFirst = c.isFirst
  start : c.isFirst = true → c'.trialMemStart = c.trialMemStart
  aimed : c'.aimed → c.aimed
  erased : c.fwUpgradeState.erased = true → c'.fwUpgradeState.erased = true
  last : c.fwUpgradeState = .finish → c'.fwUpgradeState = .finish

theorem Forth.refl (c : Cxt) : Forth c c := ⟨rfl, rfl, fun _ => rfl, id, id, id⟩

/-- The state is not touched, nor what was selected. -/
theorem Forth.of_state {c c' : Cxt} (state : c'.fwUpgradeState = c.fwUpgradeState)
    (fwd : c'.trialFwdIdx = c.trialFwdIdx) (first : c'.isFirst = c.isFirst)
    (start : c.isFirst = true → c'.trialMemStart = c.trialMemStart) : Forth c c' := by
  refine ⟨fwd, first, start, fun h => ?_, fun h => ?_, fun h => ?_⟩
  · unfold Cxt.aimed at *
    rwa [state] at h
  · rwa [state]
  · rwa [state]

/-- The fields that the header has fixed. -/
structure Settled (c c' : Cxt) : Prop where
  flags : c'.downloadFlag = c.downloadFlag
  total : c'.totalImages = c.totalImages
  slot : c'.trialSblIdx = c.trialSblIdx ∧ c'.trialSblStart = c.trialSblStart ∧
    c'.trialSblSize = c.trialSblSize

theorem Settled.refl (c : Cxt) : Settled c c := ⟨rfl, rfl, rfl, rfl, rfl⟩

section Track
variable {s₀ s t : St} {c c' : Cxt} {l l' : List Event} {start size : Nat}
  {raw hdrs : List ImageHdr} {a : EntrySums} {r img : ImageHdr} {client : Client}

theorem Loaded.change (h : Loaded s₀ s c l start raw hdrs a) (sub : l ⊆ l')
    (settled : Settled c c') (imageHdr : t.imageHdr = s.imageHdr)
    (moved : c'.trialMemStart + space (downloads c.downloadFlag) raw c.imageIndex +
        space (copies c.downloadFlag) raw c.duplicateIndex =
      c.trialMemStart + space (downloads c.downloadFlag) raw c'.imageIndex +
        space (copies c.downloadFlag) raw c'.duplicateIndex)
    (current : c'.imageIndex < c.totalImages → ∀ client, t.partition = some client →
      ∃ r, raw[c'.imageIndex]? = some r ∧ c.downloadFlag c'.imageIndex = true ∧
        c'.imageWrtLength = r.imageLength ∧ Sits s₀ c' r client)
    (copying : c.totalImages ≤ c'.imageIndex → ∀ client, t.partition = some client →
      ∃ r, raw[c'.duplicateIndex]? = some r ∧ c.downloadFlag c'.duplicateIndex = false ∧
        isSpecial r.imageId = false ∧ Sits s₀ c' r client) :
    Loaded s₀ t c' l' start raw hdrs a := by
  obtain ⟨flags, total, idx, sblStart, sblSize⟩ := settled
  constructor
  · rw [flags]
    exact sub h.images
  · rw [imageHdr]
    exact h.imageHdr
  · exact h.checked
  · rw [flags]
    have := h.start
    omega
  · rw [idx, sblStart, sblSize]
    exact h.slot
  · rw [total, flags]
    exact current
  · rw [total, flags]
    exact copying

theorem Sits.same (sits : Sits s₀ c r client) (settled : Settled c c')
    (start : c'.trialMemStart = c.trialMemStart) : Sits s₀ c' r client := by
  refine ⟨sits.id, sits.aligned, sits.fs1, ?_, ?_⟩
  · rw [settled.slot.2.1]
    exact sits.sbl
  · rw [start]
    exact sits.region

/-- Neither the images nor their places are changed. -/
theorem Loaded.keep (h : Loaded s₀ s c l start raw hdrs a) (sub : l ⊆ l')
    (settled : Settled c c') (imageHdr : t.imageHdr = s.imageHdr)
    (at_ : c'.trialMemStart = c.trialMemStart ∧ c'.imageIndex = c.imageIndex ∧
      c'.duplicateIndex = c.duplicateIndex)
    (length : c'.imageWrtLength = c.imageWrtLength)
    (part : t.partition = s.partition ∨ t.partition = none) :
    Loaded s₀ t c' l' start raw hdrs a := by
  obtain ⟨mem, index, dup⟩ := at_
  have same : ∀ client, t.partition = some client → s.partition = some client := by
    intro client hp
    rcases part with part | part
    · exact part ▸ hp
    · cases part.symm.trans hp
  apply h.change sub settled imageHdr
  · rw [mem, index, dup]
  · intro lt client hp
    rw [index] at lt ⊢
    obtain ⟨r, hr, flag, len, sits⟩ := h.current lt client (same client hp)
    exact ⟨r, hr, flag, length.trans len, sits.same settled mem⟩
  · intro done client hp
    rw [index] at done
    rw [dup]
    obtain ⟨r, hr, flag, special, sits⟩ := h.copying done client (same client hp)
    exact ⟨r, hr, flag, special, sits.same settled mem⟩

/-- A step of a session in progress. -/
theorem TrackAt.forth (at_ : TrackAt s₀ s c l) (sub : l ⊆ l')
    (fdt : c.fwUpgradeState ≠ .finish → ∀ x, InFdt x → t.rram x = s.rram x) (forth : Forth c c')
    (loaded : ∀ {f start size raw hdrs a}, c.isFirst = false → .selected f start size ∈ l →
      Loaded s₀ s c l start raw hdrs a → Loaded s₀ t c' l' start raw hdrs a) :
    TrackAt s₀ t c' l' where
  fdt := by
    intro ne x hx
    have before : c.fwUpgradeState ≠ .finish := fun h => ne (forth.last h)
    rw [fdt before x hx]
    exact at_.fdt before x hx
  other := by
    intro aimed
    rw [forth.fwd]
    exact at_.other (forth.aimed aimed)
  early := by
    intro first aimed
    rw [forth.first] at first
    rw [forth.fwd, forth.start first]
    obtain ⟨size, mem⟩ := at_.early first (forth.aimed aimed)
    exact ⟨size, sub mem⟩
  loaded := by
    intro first
    rw [forth.first] at first
    obtain ⟨erased, start, size, raw, hdrs, a, mem, h⟩ := at_.loaded first
    rw [forth.fwd]
    exact ⟨forth.erased erased, start, size, raw, hdrs, a, sub mem, loaded first mem h⟩

/-- The context is not changed. -/
theorem TrackAt.same (at_ : TrackAt s₀ s c l) (sub : l ⊆ l')
    (fdt : c.fwUpgradeState ≠ .finish → ∀ x, InFdt x → t.rram x = s.rram x)
    (imageHdr : t.imageHdr = s.imageHdr) (part : t.partition = s.partition) :
    TrackAt s₀ t c l' :=
  at_.forth sub fdt (.refl c) fun _ _ h =>
    h.keep sub (.refl c) imageHdr ⟨rfl, rfl, rfl⟩ rfl (.inl part)

/-- Before the header nothing is tracked of the images. -/
theorem TrackAt.first (at_ : TrackAt s₀ s c l) (sub : l ⊆ l')
    (fdt : c.fwUpgradeState ≠ .finish → ∀ x, InFdt x → t.rram x = s.rram x) (forth : Forth c c')
    (first : c.isFirst = true) : TrackAt s₀ t c' l' :=
  at_.forth sub fdt forth fun no _ _ => by cases first.symm.trans no

/-- An entry of the header as it was received. -/
theorem Loaded.received (h : Loaded s₀ s c l start raw hdrs a) {hdrs' : List ImageHdr}
    (imageHdr : s.imageHdr = some hdrs') {i : Nat} (hdr : hdrs'[i]? = some img) :
    ∃ r, raw[i]? = some r ∧ img = r.aligned ∧ r.imageLength ≤ r.diskSize := by
  cases h.imageHdr.symm.trans imageHdr
  exact checkEntries_get h.checked hdr

/-- An entry that was received has been kept. -/
theorem Loaded.sent (h : Loaded s₀ s c l start raw hdrs a) {i : Nat} (hr : raw[i]? = some r) :
    ∃ img, hdrs[i]? = some img ∧ img.imageId = r.imageId := by
  have len := checkEntries_length h.checked
  obtain ⟨lt, -⟩ := List.getElem?_eq_some_iff.mp hr
  have hdr := List.getElem?_eq_getElem (len ▸ lt)
  obtain ⟨r', hr', eq, -⟩ := checkEntries_get h.checked hdr
  cases hr.symm.trans hr'
  exact ⟨_, hdr, by rw [eq, aligned_imageId]⟩

/-- After the current image the next one has its place. -/
theorem Loaded.advanced (h : Loaded s₀ s c l start raw hdrs a) (proper : Proper e s₀ l) {f : Nat}
    (selected : .selected f start size ∈ l) (current : Current s c img) :
    c.advanced img =
      c.trialMemStart + sizeAt (downloads c.downloadFlag) raw c.imageIndex := by
  obtain ⟨hdrs', imageHdr, hdr⟩ := current.hdr
  obtain ⟨r, hr, rfl, -⟩ := h.received imageHdr hdr
  unfold Cxt.advanced
  rw [aligned_imageId]
  by_cases special : r.imageId ≠ fs1ImgId ∧ r.imageId ≠ sblImgId
  · obtain ⟨fs1, sbl⟩ := special
    have fits := proper.fitting selected h
    obtain ⟨lo, hi⟩ := h.room fits hr current.flag fs1 sbl
    have device := e.memSize_lt
    have inside := (proper.region _ _ _ selected).2
    rw [if_pos ⟨fs1, sbl⟩, aligned_diskSize sbl (by omega), Nat.mod_eq_of_lt (by omega),
      sizeAt_pos hr]
    unfold downloads
    simp [current.flag, fs1, sbl]
  · rw [if_neg special, sizeAt_neg hr, Nat.add_zero]
    unfold downloads
    rw [current.flag]
    by_cases fs1 : r.imageId = fs1ImgId
    · simp [fs1]
    · have sbl : r.imageId = sblImgId := by
        by_contra sbl
        exact special ⟨fs1, sbl⟩
      simp [sbl]

theorem Loaded.next (h : Loaded s₀ s c l start raw hdrs a) (proper : Proper e s₀ l) {f : Nat}
    (selected : .selected f start size ∈ l) (current : Current s c img) :
    c.advanced img + space (downloads c.downloadFlag) raw c.imageIndex +
        space (copies c.downloadFlag) raw c.duplicateIndex =
      c.trialMemStart + space (downloads c.downloadFlag) raw (c.imageIndex + 1) +
        space (copies c.downloadFlag) raw c.duplicateIndex := by
  rw [h.advanced proper selected current, space_succ]
  omega

theorem Loaded.copied (h : Loaded s₀ s c l start raw hdrs a) (proper : Proper e s₀ l) {f : Nat}
    (selected : .selected f start size ∈ l) {hdrs' : List ImageHdr}
    (imageHdr : s.imageHdr = some hdrs') (hdr : hdrs'[c.duplicateIndex]? = some img)
    (flag : c.downloadFlag c.duplicateIndex = false) (special : isSpecial img.imageId = false) :
    (c.trialMemStart + img.diskSize) % 2 ^ 32 =
      c.trialMemStart + sizeAt (copies c.downloadFlag) raw c.duplicateIndex := by
  obtain ⟨r, hr, rfl, -⟩ := h.received imageHdr hdr
  rw [aligned_imageId] at special
  have fits := proper.fitting selected h
  obtain ⟨lo, hi⟩ := h.room_copy fits hr flag special
  have device := e.memSize_lt
  have inside := (proper.region _ _ _ selected).2
  have sbl : r.imageId ≠ sblImgId := by
    rintro sbl
    rw [sbl] at special
    cases special
  rw [aligned_diskSize sbl (by omega), Nat.mod_eq_of_lt (by omega), sizeAt_pos hr]
  unfold copies
  simp [flag, special]

theorem Loaded.next_copy (h : Loaded s₀ s c l start raw hdrs a) (proper : Proper e s₀ l) {f : Nat}
    (selected : .selected f start size ∈ l) {hdrs' : List ImageHdr}
    (imageHdr : s.imageHdr = some hdrs') (hdr : hdrs'[c.duplicateIndex]? = some img)
    (flag : c.downloadFlag c.duplicateIndex = false) (special : isSpecial img.imageId = false) :
    (c.trialMemStart + img.diskSize) % 2 ^ 32 +
        space (downloads c.downloadFlag) raw c.imageIndex +
        space (copies c.downloadFlag) raw c.duplicateIndex =
      c.trialMemStart + space (downloads c.downloadFlag) raw c.imageIndex +
        space (copies c.downloadFlag) raw (c.duplicateIndex + 1) := by
  rw [h.copied proper selected imageHdr hdr flag special, space_succ]
  omega

/-- With the header the images get their places. -/
theorem TrackAt.accept {h : List Event} {state : FwState} (at_ : TrackAt s₀ s c h)
    (late : Late s) (hc : s.cxt = some c) (erased : c.fwUpgradeState.erased = true)
    (accepts : Accepts e s h c raw hdrs a state) :
    TrackAt s₀ { s with cxt := some { c with isFirst := false, fwUpgradeState := state } }
      { c with isFirst := false, fwUpgradeState := state }
      (h ++ [.images raw hdrs c.downloadFlag]) := by
  have before : c.fwUpgradeState ≠ .finish := by
    intro finish
    cases accepts.first.symm.trans (late c hc (by rw [finish]; rfl)).1
  have other := at_.other (.inr erased)
  obtain ⟨size, mem⟩ := at_.early accepts.first (.inr erased)
  obtain ⟨index, length, dup⟩ := accepts.fresh
  have loose : ∀ client, ({ s with cxt := some { c with
      isFirst := false, fwUpgradeState := state } } : St).partition ≠ some client := by
    intro client hp
    rw [partition_free rfl (by exact accepts.loose)] at hp
    cases hp
  refine ⟨fun _ => at_.fdt before, fun _ => other, (by rintro ⟨⟩), fun _ => ⟨?_,
    c.trialMemStart, size, raw, hdrs, a, List.mem_append_left _ mem, ?_⟩⟩
  · have next := accepts.next
    split at next
    · rw [next]
      rfl
    · rcases next with next | next <;>
      · rw [next]
        rfl
  · constructor
    · simp
    · exact accepts.imageHdr
    · exact accepts.checked
    · change c.trialMemStart = c.trialMemStart + space _ raw c.imageIndex +
        space _ raw c.duplicateIndex
      rw [index, dup]
      rfl
    · rw [← selectSblTrialFde_congr (at_.fdt before)]
      exact accepts.sbl
    · exact fun _ client hp => absurd hp (loose client)
    · exact fun _ client hp => absurd hp (loose client)

end Track

/-! ## Step by step -/

theorem Move.trackAt {s₀ s t : St} {h h' : List Event} (m : Move e false (s, h) (t, h'))
    (proper : Proper e s₀ h) (late : Late s) (track : Track s₀ s h) (sub : h ⊆ h')
    (fdt : ∀ c, s.cxt = some c → c.fwUpgradeState ≠ .finish →
      ∀ x, InFdt x → t.rram x = s.rram x) :
    ∀ c, t.cxt = some c → TrackAt s₀ t c h' := by
  intro d hd
  cases m with
  | quiet q =>
    have hc := q.cxt.symm.trans hd
    exact (track.cxt d hc).same sub (fdt d hc) q.imageHdr q.partition
  | note n => exact (track.cxt d hd).same sub (fdt d hd) rfl rfl
  | reset => exact (track.cxt d hd).same sub (fdt d hd) rfl rfl
  | headerHash bytes equal hc first => exact (track.cxt d hd).same sub (fdt d hd) rfl rfl
  | close hs => cases hd
  | attach hs k hc first =>
    cases hd
    exact (track.cxt _ hc).first sub (fdt _ hc) (.of_state rfl rfl rfl fun _ => rfl) first
  | detach hs hc =>
    cases hd
    exact (track.cxt _ hc).forth sub (fdt _ hc) (.of_state rfl rfl rfl fun _ => rfl)
      fun _ _ loaded => loaded.keep sub ⟨rfl, rfl, rfl, rfl, rfl⟩ rfl ⟨rfl, rfl, rfl⟩ rfl (.inr rfl)
  | tune bufLen bufOffset hidden config state hc edge =>
    cases hd
    refine (track.cxt _ hc).forth sub (fdt _ hc)
      ⟨rfl, rfl, fun _ => rfl, fun aimed => ?_, fun erased => ?_, fun last => ?_⟩
      fun _ _ loaded => loaded.keep sub ⟨rfl, rfl, rfl, rfl, rfl⟩ rfl ⟨rfl, rfl, rfl⟩ rfl
        (.inl (partition_same hc rfl rfl rfl))
    · exact aimed.imp edge.eraseFwd fun erased => edge.erased ▸ erased
    · exact edge.erased.trans erased
    · have onward := edge.onward
      rw [last] at onward
      change state = .finish
      cases state <;> first | rfl | exact absurd onward (by decide)
  | aim fwdIdx start size hc state =>
    cases hd
    have at_ := track.cxt _ hc
    have not : ¬(FwState.getTrialInfo = .eraseFwd ∨ FwState.getTrialInfo.erased = true) := by
      decide
    rw [← state] at not
    refine ⟨fun ne => ?_, fun aimed => absurd aimed not, fun _ aimed => absurd aimed not,
      fun first => absurd (.inr (at_.loaded first).1) not⟩
    intro x hx
    exact (fdt _ hc ne x hx).trans (at_.fdt ne x hx)
  | select hc state selected q other =>
    cases hd
    have at_ := track.cxt _ hc
    have before := state.trans_ne (show FwState.getTrialInfo ≠ .finish by decide)
    refine ⟨fun _ x hx => (fdt _ hc before x hx).trans (at_.fdt before x hx), fun _ => ?_,
      fun _ _ => ⟨_, List.mem_append_right _ (List.mem_cons_self ..)⟩, fun first => ?_⟩
    · rw [← track.active hc before]
      exact other.symm
    · have erased := (at_.loaded first).1
      rw [state] at erased
      cases erased
  | @erased _ t _ c hc state lt possible ran =>
    cases hd
    have at_ := track.cxt _ hc
    have before := state.trans_ne (show FwState.eraseFwd ≠ .finish by decide)
    refine ⟨fun _ x hx => (fdt _ hc before x hx).trans (at_.fdt before x hx), fun _ => ?_,
      fun first _ => ?_, fun first => ?_⟩
    · exact at_.other (.inl state)
    · obtain ⟨size, mem⟩ := at_.early first (.inl state)
      exact ⟨size, sub mem⟩
    · have erased := (at_.loaded first).1
      rw [state] at erased
      cases erased
  | notErased hc state lt bad possible ran =>
    cases hc.symm.trans (ran.cxt.symm.trans hd)
    exact (track.cxt _ hc).same sub (fdt _ hc) ran.imageHdr ran.partition
  | bulk hc state which found touches =>
    cases hc.symm.trans (touches.cxt.symm.trans hd)
    exact (track.cxt _ hc).same sub (fdt _ hc) touches.imageHdr touches.partition
  | hide hc state first fwd hidden entered =>
    have touches := entered.touches
    cases hc.symm.trans (touches.cxt.symm.trans hd)
    exact (track.cxt _ hc).same sub (fdt _ hc) touches.imageHdr touches.partition
  | early imageHdr format count total sblStart sblSize sblIdx flags digest hc first =>
    cases hd
    exact (track.cxt _ hc).first sub (fdt _ hc) (.of_state rfl rfl rfl fun _ => rfl) first
  | field hc state first lt header possible ran =>
    cases hc.symm.trans (ran.cxt.symm.trans hd)
    exact (track.cxt _ hc).same sub (fdt _ hc) ran.imageHdr ran.partition
  | accept hc erased accepts =>
    cases hd
    exact (track.cxt _ hc).accept late hc erased accepts
  | skipTo index hc state loose le skipped =>
    cases hd
    refine (track.cxt _ hc).forth sub (fdt _ hc) (.of_state rfl rfl rfl fun _ => rfl)
      fun _ _ loaded => loaded.change sub ⟨rfl, rfl, rfl, rfl, rfl⟩ rfl ?_
        (fun _ _ hp => partition_not rfl (by exact loose) hp)
        (fun _ _ hp => partition_not rfl (by exact loose) hp)
    change _ = _ + space _ _ index + _
    rw [space_skip le skipped]
  | @emptyFs1 _ _ _ c _ hs hc state loose first empty fwd id entered =>
    cases hd
    refine (track.cxt _ hc).forth sub (fdt _ hc) (.of_state rfl rfl rfl fun _ => rfl)
      @fun _ _ _ raw _ _ _ _ loaded => loaded.change sub ⟨rfl, rfl, rfl, rfl, rfl⟩
        entered.touches.imageHdr ?_
        (fun _ _ hp => partition_not rfl (by exact loose) hp)
        (fun _ _ hp => partition_not rfl (by exact loose) hp)
    change _ = _ + space _ _ (c.imageIndex + 1) + _
    have none : sizeAt (downloads c.downloadFlag) raw c.imageIndex = 0 := by
      cases hr : raw[c.imageIndex]? with
      | none =>
        unfold sizeAt
        rw [hr]
      | some r =>
        obtain ⟨img, hdr, id⟩ := loaded.sent hr
        have fs1 := (empty _ _ loaded.imageHdr hdr).1
        apply sizeAt_neg hr
        unfold downloads
        simp [← id, fs1]
    rw [space_succ, none, Nat.add_zero]
    rfl
  | begin hc current len =>
    cases hd
    have at_ := track.cxt _ hc
    obtain ⟨hdrs', imageHdr, hdr⟩ := current.hdr
    refine at_.forth sub (fdt _ hc) (.of_state rfl rfl rfl fun _ => rfl)
      fun _ _ loaded => loaded.change sub ⟨rfl, rfl, rfl, rfl, rfl⟩ rfl rfl
        (fun lt client hp => ?_)
        (fun done client hp => absurd current.lt (Nat.not_lt.mpr done))
    obtain ⟨r, hr, flag, -, sits⟩ :=
      loaded.current lt client (partition_back hp hc rfl rfl rfl)
    obtain ⟨r', hr', rfl, -⟩ := loaded.received imageHdr hdr
    cases hr.symm.trans hr'
    exact ⟨r, hr, flag, aligned_imageLength r, sits.same ⟨rfl, rfl, rfl, rfl, rfl⟩ rfl⟩
  | noEntry hc state fwd bad entered =>
    have touches := entered.touches
    cases hc.symm.trans (touches.cxt.symm.trans hd)
    exact (track.cxt _ hc).same sub (fdt _ hc) touches.imageHdr touches.partition
  | place hs hc current count len placed entered first handle reset =>
    cases hd
    obtain ⟨hdrs', imageHdr, hdr⟩ := current.hdr
    rename_i t₁ u l c img client ready k digest
    have kept : u.imageHdr = s.imageHdr := by
      have first : u.imageHdr = t₁.imageHdr := by
        split at first
        · rw [first.2.1]
        · exact first.touches.imageHdr
      exact first.trans entered.touches.imageHdr
    have before : c.fwUpgradeState ≠ .finish := by
      rw [current.state]
      decide
    refine (track.cxt _ hc).forth sub (fdt _ hc) (.of_state rfl rfl rfl fun _ => rfl)
      fun _ selected loaded => loaded.change sub ⟨rfl, rfl, rfl, rfl, rfl⟩ kept rfl
        (fun lt client' hp => ?_)
        (fun done client hp => absurd current.lt (Nat.not_lt.mpr done))
    cases partition_at rfl (by rfl) handle hp
    obtain ⟨r, hr, rfl, le⟩ := loaded.received imageHdr hdr
    have fitting := loaded.fitting proper selected hr current.flag
    have fits := proper.fitting selected loaded
    have sits := placed.sits entered.placeable track hc before fun sbl =>
      fitting.whole proper (fits.fs1 r (List.mem_of_getElem? hr)) sbl
    exact ⟨r, hr, current.flag, len.trans (aligned_imageLength r),
      sits.same ⟨rfl, rfl, rfl, rfl, rfl⟩ rfl⟩
  | chunk bufOffset hc current part ne fit ahead write next =>
    cases hd
    have touches := chunk_touches ahead write next
    refine (track.cxt _ hc).forth sub (fdt _ hc) (.of_state rfl rfl rfl fun _ => rfl)
      fun _ _ loaded => loaded.keep sub ⟨rfl, rfl, rfl, rfl, rfl⟩ touches.imageHdr
        ⟨rfl, rfl, rfl⟩ rfl (.inl ?_)
    rw [← touches.partition]
    exact partition_same (touches.cxt.trans hc) (by rfl) (by rfl) rfl
  | spoil bufOffset hc current part fit ahead write =>
    cases hd
    have touches := spoil_touches ahead write
    refine (track.cxt _ hc).forth sub (fdt _ hc) (.of_state rfl rfl rfl fun _ => rfl)
      fun _ _ loaded => loaded.keep sub ⟨rfl, rfl, rfl, rfl, rfl⟩ touches.imageHdr
        ⟨rfl, rfl, rfl⟩ rfl (.inl ?_)
    rw [← touches.partition]
    exact partition_same (touches.cxt.trans hc) (by rfl) (by rfl) rfl
  | lost bufOffset hc state loose =>
    cases hd
    exact (track.cxt _ hc).forth sub (fdt _ hc) (.of_state rfl rfl rfl fun _ => rfl)
      fun _ _ loaded => loaded.keep sub ⟨rfl, rfl, rfl, rfl, rfl⟩ rfl
        ⟨rfl, rfl, rfl⟩ rfl (.inl (partition_same hc rfl rfl rfl))
  | complete hs hc current part pos full notes q hash =>
    cases hd
    refine (track.cxt _ hc).forth sub (fdt _ hc) (.of_state rfl rfl rfl fun first => ?_)
      fun _ selected loaded => loaded.change sub ⟨rfl, rfl, rfl, rfl, rfl⟩ q.imageHdr ?_
        (fun _ _ hp => partition_not rfl (by rfl) hp) (fun _ _ hp => partition_not rfl (by rfl) hp)
    · cases first.symm.trans current.first
    · exact loaded.next proper selected current
  | giveUp hs hc state events q =>
    cases hd
    exact (track.cxt _ hc).forth sub (fdt _ hc) (.of_state rfl rfl rfl fun _ => rfl)
      fun _ _ loaded => loaded.keep sub ⟨rfl, rfl, rfl, rfl, rfl⟩ q.imageHdr
        ⟨rfl, rfl, rfl⟩ rfl (.inr (partition_free rfl (by rfl)))
  | skipEmpty hs hc current empty len format =>
    cases hd
    refine (track.cxt _ hc).forth sub (fdt _ hc) (.of_state rfl rfl rfl fun first => ?_)
      fun _ selected loaded => loaded.change sub ⟨rfl, rfl, rfl, rfl, rfl⟩ rfl ?_
        (fun _ _ hp => partition_not rfl (by rfl) hp) (fun _ _ hp => partition_not rfl (by rfl) hp)
    · cases first.symm.trans current.first
    · exact loaded.next proper selected current
  | dupBegin hc state again =>
    cases hd
    have zero := again.resolve_left (by decide)
    exact (track.cxt _ hc).forth sub (fdt _ hc) (.of_state rfl rfl rfl fun _ => rfl)
      fun _ _ loaded => loaded.keep sub ⟨rfl, rfl, rfl, rfl, rfl⟩ rfl
        ⟨rfl, rfl, zero.symm⟩ rfl (.inl (partition_same hc rfl rfl rfl))
  | dupPlace hs hc state loose imageHdr hdr flag special fwd id start size entered handle =>
    cases hd
    obtain ⟨-, done⟩ := late _ hc (by rw [state]; rfl)
    refine (track.cxt _ hc).forth sub (fdt _ hc) (.of_state rfl rfl rfl fun _ => rfl)
      fun _ selected loaded => loaded.change sub ⟨rfl, rfl, rfl, rfl, rfl⟩
        entered.touches.imageHdr rfl (fun lt client hp => absurd lt (Nat.not_lt.mpr done))
        (fun _ client' hp => ?_)
    cases partition_at rfl (by rfl) handle hp
    obtain ⟨r, hr, rfl, le⟩ := loaded.received imageHdr hdr
    rw [aligned_imageId] at special id
    have fitting := loaded.fitting_copy proper selected hr flag special
    have sbl : r.imageId ≠ sblImgId := by
      rintro sbl
      rw [sbl] at special
      cases special
    have fs1 : r.imageId ≠ fs1ImgId := by
      rintro fs1
      rw [fs1] at special
      cases special
    have whole := fitting.whole proper (fun h => absurd h fs1) sbl
    refine ⟨r, hr, flag, special, id, fun _ => ?_, fun h => absurd h fs1, fun h => absurd h sbl,
      fun _ _ => ⟨start, size.trans (aligned_diskSize sbl whole)⟩⟩
    exact (entered.placeable (id ▸ sbl)).1
  | dupWork hc state part imageHdr hdr touches =>
    cases hc.symm.trans (touches.cxt.symm.trans hd)
    exact (track.cxt _ hc).same sub (fdt _ hc) touches.imageHdr touches.partition
  | dupNext hs hc state held imageHdr hdr flag special =>
    cases hd
    have first := (late _ hc (by rw [state]; rfl)).1
    refine (track.cxt _ hc).forth sub (fdt _ hc) (.of_state rfl rfl rfl fun h => ?_)
      fun _ selected loaded => loaded.change sub ⟨rfl, rfl, rfl, rfl, rfl⟩ rfl ?_
        (fun _ _ hp => partition_not rfl (by rfl) hp) (fun _ _ hp => partition_not rfl (by rfl) hp)
    · cases first.symm.trans h
    · exact loaded.next_copy proper selected imageHdr hdr flag special
  | @dupSkip _ _ c img _ hc state loose imageHdr hdr kept =>
    cases hd
    refine (track.cxt _ hc).forth sub (fdt _ hc) (.of_state rfl rfl rfl fun _ => rfl)
      @fun _ _ _ raw _ _ _ _ loaded => loaded.change sub ⟨rfl, rfl, rfl, rfl, rfl⟩ rfl ?_
        (fun _ _ hp => partition_not rfl (by exact loose) hp)
        (fun _ _ hp => partition_not rfl (by exact loose) hp)
    change _ = _ + _ + space _ raw (c.duplicateIndex + 1)
    obtain ⟨r, hr, rfl, -⟩ := loaded.received imageHdr hdr
    rw [aligned_imageId] at kept
    have none : sizeAt (copies c.downloadFlag) raw c.duplicateIndex = 0 := by
      apply sizeAt_neg hr
      unfold copies
      rcases kept with kept | kept <;> simp [kept]
    rw [space_succ, none, Nat.add_zero]
    rfl
  | validate hc state lt possible ran =>
    cases hc.symm.trans (ran.cxt.symm.trans hd)
    exact (track.cxt _ hc).same sub (fdt _ hc) ran.imageHdr ran.partition
  | fde hc state possible ran =>
    cases hc.symm.trans (ran.cxt.symm.trans hd)
    exact (track.cxt _ hc).same sub (fdt _ hc) ran.imageHdr ran.partition

theorem Move.track {s₀ s t : St} {h h' : List Event} (m : Move e false (s, h) (t, h'))
    (proper : Proper e s₀ h) (late : Late s) (track : Track s₀ s h) : Track s₀ t h' := by
  obtain ⟨k, rfl, effects⟩ := m.effects
  have sub : h ⊆ h ++ k := fun w mem => List.mem_append_left k mem
  refine ⟨fun running x hx => ?_, m.trackAt proper late track sub fun c hc before x hx => ?_,
    fun i client offset op out mem => ?_, fun who op out mem => ?_⟩
  · rw [effects.devices.1, replay_flash]
    · exact track.table running x hx
    · intro w o r mem a n range
      obtain ⟨c, hc, does⟩ := effects.does w o r mem
      unfold InFwd at hx
      rcases (does.reserved track hc proper late).within proper with ⟨f, other, inside⟩ | inside
      · have := inside a n range
        unfold fwdAddr blockSize at *
        omega
      · have := inside a n range
        unfold fwdAddr maxFwd blockSize at *
        omega
  · rw [effects.devices.2, replay_rram]
    intro w o r mem a bs eq
    obtain ⟨c', hc', does⟩ := effects.does w o r mem
    cases hc.symm.trans hc'
    exact does.rram track hc proper late before eq hx
  · rcases List.mem_append.mp mem with mem | mem
    · exact (track.images i client offset op out mem).append k
    · obtain ⟨c, hc, does⟩ := effects.does _ _ _ mem
      exact (does.inArea track hc proper late).append k
  · rcases List.mem_append.mp mem with mem | mem
    · exact (track.ops who op out mem).append k
    · obtain ⟨c, hc, does⟩ := effects.does _ _ _ mem
      exact (does.reserved track hc proper late).append k

/-- Before anything is done. -/
theorem Track.still {s₀ s : St} {l : List Event} (still : Still s₀ s)
    (ops : ∀ who op out, .op who op out ∉ l) (cxt : ∀ c, s.cxt = some c → c = freshCxt) :
    Track s₀ s l where
  table := by
    intro _ x _
    rw [still.flash]
  cxt := by
    intro c hc
    cases cxt c hc
    refine ⟨fun _ x _ => by rw [still.rram], fun aimed => ?_, fun _ aimed => ?_, by rintro ⟨⟩⟩
    · rcases aimed with aimed | aimed <;> cases aimed
    · rcases aimed with aimed | aimed <;> cases aimed
  images := fun i client offset op out mem => absurd mem (ops _ op out)
  ops := fun who op out mem => absurd mem (ops who op out)

/-- The conditions are on all of the events, so they hold of what has happened up to each
move. -/
theorem track_of_moves {s₀ s t : St} {h h' : List Event} (moves : Moves e false (s, h) (t, h'))
    (late : Late s) (proper : Proper e s₀ h') (track : Track s₀ s h) : Track s₀ t h' := by
  refine (invariant_of_step (I := fun x => Late x.1 ∧ (Proper e s₀ x.2 → Track s₀ x.1 x.2))
    (fun x y h m => ⟨m.late h.1, fun proper => ?_⟩) moves ⟨late, fun _ => track⟩).2 proper
  obtain ⟨k, eq, -⟩ := m.effects
  have before : Proper e s₀ x.2 := by
    rw [eq] at proper
    exact proper.before
  exact m.track before h.1 (h.2 before)

theorem Since.track {s₀ s : St} {l : List Event} (since : Since e false s₀ s l)
    (proper : Proper e s₀ l) : Track s₀ s l := by
  cases since with
  | idle none still notes =>
    refine .still still (fun who op out mem => ?_) fun c hc => by cases none.symm.trans hc
    obtain ⟨n, eq⟩ := notes _ mem
    cases eq
  | @moves s₁ k cxt still notes moves =>
    have start : Track s₀ s₁ (k ++ [.start]) := by
      refine .still still (fun who op out mem => ?_) fun c hc => (Option.some.inj
        (cxt.symm.trans hc)).symm
      rcases List.mem_append.mp mem with mem | mem
      · obtain ⟨n, eq⟩ := notes _ mem
        cases eq
      · simp at mem
    have late : Late s₁ := .of_state cxt fun h => by cases h
    exact track_of_moves moves late proper start

/-- No packet goes on with a copy of images that has failed. -/
def Fresh (s : St) (p : Packet) : Prop := p.offset = 0 ∨ NotBegun s

/-- Where the header fits, every operation for an image is in the area of its id, so in the
device, behind the tables and outside the running image set. And the session changes no flash
but the block of the trial FWD, the selected region and two partitions of the running FWD,
which are behind the descriptors. -/
theorem session_contained {s₀ s : St} {l : List Event} (calls : Calls e Fresh s₀ s l)
    (proper : Proper e s₀ l) (spared : Spared s₀ l) :
    (∀ i client offset op out, .op (.image i client offset) op out ∈ l →
      InArea s₀ l client.imgId op ∧ op.Within (maxFwd * blockSize) e.memSize ∧
        ∀ p, RunningPart s₀ p → op.Misses p) ∧
    ∀ who op out, .op who op out ∈ l → Reserved s₀ l op ∧
      ((∃ f, f ≠ activeFwd s₀.rram ∧ op.Within (fwdAddr f) (fwdAddr f + blockSize)) ∨
        op.Within (maxFwd * blockSize) e.memSize ∧
          ∀ p, RunningPart s₀ p → ¬Lookup s₀.flash (activeFwd s₀.rram) ramdumpImgId p →
            op.Misses p) := by
  have again : ∀ s p, Fresh s p → p.offset = 0 ∨ false = true ∨ NotBegun s :=
    fun s p h => h.imp_right .inr
  have track := (calls.since false again).2.track proper
  constructor
  · intro i client offset op out mem
    have inArea := track.images i client offset op out mem
    exact ⟨inArea, inArea.within proper, fun p running => inArea.misses spared running⟩
  · intro who op out mem
    have reserved := track.ops who op out mem
    exact ⟨reserved, reserved.contained proper spared⟩

theorem mem_of_all {l : List Event} {p : Event → Bool} (all : l.all p = true) {w : Event}
    (mem : w ∈ l) : p w = true := List.all_eq_true.mp all w mem

def plainRun : List Event := (sessionProcess plainEnv 40 (.of 0 plainUpload) plainDevice).trace

def Event.selects (start size : Nat) : Event → Bool
  | .selected _ a n => a == start && n == size
  | _ => true

def Event.accepts (imgs : List ImageHdr) : Event → Bool
  | .images raw _ _ => raw == imgs
  | _ => true

theorem plainDevice_laid : Laid plainEnv plainDevice where
  parts := by
    rintro id client which ⟨lt, i, found, rfl⟩
    have listed : activeFwd plainDevice.rram = 0 ∧
        entryOf plainDevice.flash 0 fs2ImgId = some 1 ∧
        entryOf plainDevice.flash 0 ramdumpImgId = none ∧
        ((fwdEntry plainDevice.flash 0 1).client 0 1).imgStart = 4 * blockSize ∧
        ((fwdEntry plainDevice.flash 0 1).client 0 1).imgSize = blockSize := by decide
    obtain ⟨active, fs2, ramdump, start, size⟩ := listed
    rw [active] at found ⊢
    rcases which with rfl | rfl
    · cases fs2.symm.trans found
      rw [start, size]
      decide
    · cases ramdump.symm.trans found
  slot := by
    have slot : selectSblTrialFde plainDevice.rram = some (1, 0x210000, sblMemSize) := by
      decide
    intro i start size found
    cases slot.symm.trans found
    decide

/-- The trial FWD of `plainDevice` gets the upper half of the device. -/
def Event.selectsUpper : Event → Bool := Event.selects (302 * blockSize) (297 * blockSize)

theorem selected_upper {l : List Event} (all : l.all Event.selectsUpper = true)
    {f start size : Nat} (mem : .selected f start size ∈ l) :
    start = 302 * blockSize ∧ size = 297 * blockSize := by
  have at_ := mem_of_all all mem
  simpa only [Event.selectsUpper, Event.selects, Bool.and_eq_true, beq_iff_eq] using at_

theorem proper_upper {l : List Event} {imgs : List ImageHdr}
    (selects : l.all Event.selectsUpper = true) (accepts : l.all (Event.accepts imgs) = true)
    (fits : ∀ flags, Fits (297 * blockSize) imgs flags) : Proper plainEnv plainDevice l where
  laid := plainDevice_laid
  region := by
    intro f start size mem
    obtain ⟨rfl, rfl⟩ := selected_upper selects mem
    decide
  fits := by
    intro f start size raw hdrs flags selected accepted
    obtain ⟨-, rfl⟩ := selected_upper selects selected
    have there := mem_of_all accepts accepted
    simp only [Event.accepts, beq_iff_eq] at there
    rw [there]
    exact fits flags

/-- Images of at most one block, none of them for FS1 or SBL. -/
theorem fits_of_small {imgs : List ImageHdr} {flags : Nat → Bool} {size : Nat}
    (room : imgs.length * blockSize ≤ size)
    (small : ∀ r ∈ imgs, r.diskSize ≤ blockSize ∧ r.imageId ≠ fs1ImgId ∧ r.imageId ≠ sblImgId) :
    Fits size imgs flags where
  region := by
    have each : ∀ i ∈ Finset.range imgs.length, sizeAt (placed flags) imgs i ≤ blockSize := by
      intro i _
      unfold sizeAt
      split
      · rename_i r hr
        have one := blockCount_mono (small r (List.mem_of_getElem? hr)).1
        have := Nat.mul_le_mul_right blockSize one
        split
        · exact Nat.le_trans this (by decide)
        · exact Nat.zero_le _
      · exact Nat.zero_le _
    have sum := Finset.sum_le_card_nsmul _ _ _ each
    rw [Finset.card_range] at sum
    exact Nat.le_trans sum room
  fs1 r mem id := absurd id (small r mem).2.1
  sbl i r hr _ id := absurd id (small r (List.mem_of_getElem? hr)).2.2

def Event.acknowledged : Event → Bool
  | .op _ _ (.failed _) | .op _ _ .rejected | .note (.denied _) => false
  | _ => true

def Event.loads (imgs : List ImageHdr) : Event → Bool
  | .images raw _ flags => raw == imgs && flags 0
  | _ => false

def Event.verifies (i : Nat) (data : List UInt8) : Event → Bool
  | .hashed (some j) bytes true => j == i && bytes == data
  | _ => false

/-- What the run is looked through for, in one evaluation. -/
theorem plainRun_checks : plainRun.all Event.selectsUpper = true ∧
    plainRun.all (Event.accepts [plainImage appImgId blockSize 1]) = true ∧
    plainRun.all Event.acknowledged = true ∧
    plainRun.any (Event.loads [plainImage appImgId blockSize 1]) = true ∧
    plainRun.any (Event.verifies 0 [7]) = true := by
  decide +kernel

theorem plainRun_selects : plainRun.all Event.selectsUpper = true := plainRun_checks.1

theorem plainRun_accepts : plainRun.all (Event.accepts [plainImage appImgId blockSize 1]) = true :=
  plainRun_checks.2.1

theorem plainRun_acked : plainRun.all Event.acknowledged = true := plainRun_checks.2.2.1

theorem plainRun_proper : Proper plainEnv plainDevice plainRun :=
  proper_upper plainRun_selects plainRun_accepts fun flags =>
    fits_of_small (by decide) (by decide)

theorem plainRun_spared : Spared plainDevice plainRun := by
  have active : activeFwd plainDevice.rram = 0 := by decide
  have fs2 : entryOf plainDevice.flash 0 fs2ImgId = some 1 := by decide
  have ramdump : entryOf plainDevice.flash 0 ramdumpImgId = none := by decide
  have below : ∀ i < maxImages, (fwdEntry plainDevice.flash 0 i).imageId ≠ imageUnused →
      let p := (fwdEntry plainDevice.flash 0 i).client 0 i
      p.imgStart + p.imgSize ≤ 302 * blockSize ∧
        (i = 1 ∨ p.imgStart + p.imgSize ≤ 4 * blockSize ∨ 5 * blockSize ≤ p.imgStart) := by
    decide
  constructor
  · rintro f start size p selected ⟨⟨i, lt, rfl⟩, used, -⟩
    obtain ⟨rfl, -⟩ := selected_upper plainRun_selects selected
    rw [active] at used ⊢
    exact .inr (below i lt used).1
  · rintro id q p which ⟨-, j, found, rfl⟩ ⟨⟨i, lt, rfl⟩, used, -⟩ other
    rw [active] at found used other ⊢
    rcases which with rfl | rfl
    · cases fs2.symm.trans found
      have size : ((fwdEntry plainDevice.flash 0 1).client 0 1).imgStart = 4 * blockSize ∧
          ((fwdEntry plainDevice.flash 0 1).client 0 1).imgSize = blockSize := by decide
      rcases (below i lt used).2 with rfl | apart
      · exact absurd rfl other
      · rw [size.1, size.2]
        exact apart.symm
    · cases ramdump.symm.trans found

theorem plainRun_contained :
    (∀ i client offset op out, .op (.image i client offset) op out ∈ plainRun →
      InArea plainDevice plainRun client.imgId op ∧
        op.Within (maxFwd * blockSize) plainEnv.memSize ∧
        ∀ p, RunningPart plainDevice p → op.Misses p) ∧
    ∀ who op out, .op who op out ∈ plainRun → Reserved plainDevice plainRun op ∧
      ((∃ f, f ≠ activeFwd plainDevice.rram ∧ op.Within (fwdAddr f) (fwdAddr f + blockSize)) ∨
        op.Within (maxFwd * blockSize) plainEnv.memSize ∧
          ∀ p, RunningPart plainDevice p →
            ¬Lookup plainDevice.flash (activeFwd plainDevice.rram) ramdumpImgId p →
              op.Misses p) := by
  have idle : Calls plainEnv Fresh plainDevice plainDevice [] := .idle rfl
  exact session_contained (idle.restart 40 (.of 0 plainUpload) rfl (.inl rfl)) plainRun_proper
    plainRun_spared

/-- FWD 1 runs, with its application in the upper half of the device. -/
def swappedDevice : St := { plainDevice with
  flash := store plainDevice.flash (fwdAddr 1) (leBytes 4 magicV1 ++ leBytes 4 1 ++ leBytes 4 2 ++
    [1, 3] ++ List.replicate 18 0xFF ++ entryBytes fs1ImgId 1 (3 * blockSize) blockSize ++
    entryBytes fs2ImgId 1 (4 * blockSize) blockSize ++
    entryBytes appImgId 1 (302 * blockSize) blockSize)
  rram := store plainDevice.rram (fdeAddr 0 + 12) (leBytes 4 1) }

/-- The application takes all of the region, and the image behind it is left out of the sum. -/
def crowdedUpload : List UInt8 := encodedHeader 2
  [plainImage appImgId (297 * blockSize) 1, plainImage fs2ImgId blockSize 1] ++ [7, 8]

def crowdedRun : List Event := (sessionProcess plainEnv 40 (.of 0 crowdedUpload) swappedDevice).trace

def Event.erasesImage (id addr : Nat) : Event → Bool
  | .op (.image _ client _) (.erase a n) .done =>
    client.imgId == id && a == addr && n == blockSize
  | _ => false

theorem swappedDevice_app : ∃ app, RunningPart swappedDevice app ∧ app.imgId = appImgId ∧
    app.imgStart = 302 * blockSize ∧ app.imgSize = blockSize := by
  have active : activeFwd swappedDevice.rram = 1 := by decide
  have app : ((fwdEntry swappedDevice.flash 1 2).client 1 2).imgId = appImgId ∧
      ((fwdEntry swappedDevice.flash 1 2).client 1 2).imgStart = 302 * blockSize ∧
      ((fwdEntry swappedDevice.flash 1 2).client 1 2).imgSize = blockSize := by decide
  refine ⟨_, ⟨⟨2, by decide, rfl⟩, ?_, ?_, fun found => ?_⟩, by rw [active]; exact app⟩
  · rw [active, app.1]
    decide
  · rw [active, app.1]
    decide
  · have id := found.imgId
    rw [active, app.1] at id
    exact absurd id (by decide)

/-- A header that is accepted lets the running application be erased. -/
theorem crowded_not_contained : Calls plainEnv Fresh swappedDevice
      (sessionProcess plainEnv 40 (.of 0 crowdedUpload) swappedDevice).state crowdedRun ∧
    ∃ i client offset op, .op (.image i client offset) op .done ∈ crowdedRun ∧
      ¬InArea swappedDevice crowdedRun client.imgId op ∧
      ∃ app, RunningPart swappedDevice app ∧ app.imgId = appImgId ∧ ¬op.Misses app := by
  have idle : Calls plainEnv Fresh swappedDevice swappedDevice [] := .idle rfl
  refine ⟨idle.restart 40 (.of 0 crowdedUpload) rfl (.inl rfl), ?_⟩
  have run : (crowdedRun.any (Event.erasesImage fs2ImgId (302 * blockSize)) &&
      crowdedRun.all (Event.selects (5 * blockSize) (297 * blockSize))) = true := by decide +kernel
  rw [Bool.and_eq_true] at run
  obtain ⟨w, mem, erases⟩ := List.any_eq_true.mp run.1
  have region : ∀ f start size, .selected f start size ∈ crowdedRun →
      start = 5 * blockSize ∧ size = 297 * blockSize := by
    intro f start size selected
    simpa [Event.selects] using mem_of_all run.2 selected
  cases w with
  | op who op out =>
    cases who with
    | image i client offset =>
      cases op with
      | erase a size =>
        cases out with
        | done =>
          simp only [Event.erasesImage, Bool.and_eq_true, beq_iff_eq] at erases
          obtain ⟨⟨id, rfl⟩, rfl⟩ := erases
          refine ⟨i, client, offset, _, mem, ?_, ?_⟩
          · rw [id]
            unfold InArea
            rw [if_neg (by decide), if_neg (by decide)]
            rintro ⟨f, start, size', selected, x, n, range, lo, hi⟩
            obtain ⟨rfl, rfl⟩ := region _ _ _ selected
            cases range
            exact absurd hi (by decide)
          · obtain ⟨app, running, name, start, size⟩ := swappedDevice_app
            refine ⟨app, running, name, fun misses => ?_⟩
            have apart := misses _ _ rfl
            rw [start, size] at apart
            exact absurd apart (by decide)
        | _ => cases erases
      | _ => cases erases
    | _ => cases erases
  | _ => cases erases

end Qapp.Fw
