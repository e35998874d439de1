import Mathlib.Data.List.Induction
import Qapp.Fw.Calls

/-!
# The verification gate

The trial FWD becomes valid only in a session that has verified its header and
every image it downloaded.
-/

namespace Qapp.Fw
open ByteMem Traced
open Relation (ReflTransGen)

variable {e : Env} {retry : Bool}

/-! ## What a move adds to the history -/

/-- Events that neither open a session, nor accept a header, nor set a status. -/
def Calm : Event → Prop
  | .start => False
  | .images _ _ _ => False
  | .op (.info _ .status) _ _ => False
  | _ => True

theorem Touches.calm {P : Issuer → Op → Outcome → Prop} {s t : St} {l : List Event}
    (h : Touches e P s l t) (who : ∀ w o r, P w o r → ∀ f, w ≠ .info f .status) :
    ∀ w ∈ l, Calm w := by
  intro w hw
  rcases h.events w hw with ⟨n, rfl⟩ | ⟨w, o, r, rfl, allowed⟩
  · trivial
  · cases w with
    | info f info =>
      cases info with
      | status => exact absurd rfl (who _ _ _ allowed f)
      | _ => trivial
    | _ => trivial

theorem EraseRun.calm {i n size : Nat} {c : Client} {s t : St} {l : List Event} {ok : Bool}
    (h : EraseRun e (.image i c n) c n size s l t ok) : ∀ w ∈ l, Calm w :=
  h.touches.calm fun w o r allowed f => by
    rw [allowed.1]
    rintro ⟨⟩

theorem WriteRun.calm {i n : Nat} {c : Client} {bytes : List UInt8} {s t : St} {l : List Event}
    {ok : Bool} (h : WriteRun e (.image i c n) c n bytes s l t ok) : ∀ w ∈ l, Calm w :=
  h.touches.calm fun w o r allowed f => by
    rw [allowed.1]
    rintro ⟨⟩

/-- The events a move adds. -/
inductive Adds (s : St) : List Event → Prop
  | calm {k : List Event} (calm : ∀ w ∈ k, Calm w) : Adds s k
  | start : Adds s [.start]
  | images (raw hdrs : List ImageHdr) (flags : Nat → Bool) : Adds s [.images raw hdrs flags]
  | status {c : Cxt} (op : Op) (out : Outcome) (hc : s.cxt = some c)
      (state : c.fwUpgradeState = .finish) : Adds s [.op (.info c.trialFwdIdx .status) op out]

theorem Adds.one {s : St} {w : Event} (calm : Calm w) : Adds s [w] :=
  .calm fun _ hw => List.mem_singleton.mp hw ▸ calm

theorem calm_append {k l : List Event} (hk : ∀ w ∈ k, Calm w) (hl : ∀ w ∈ l, Calm w) :
    ∀ w ∈ k ++ l, Calm w :=
  fun w hw => (List.mem_append.mp hw).elim (hk w) (hl w)

theorem Move.adds {s t : St} {h h' : List Event} (m : Move e retry (s, h) (t, h')) :
    ∃ k, h' = h ++ k ∧ Adds s k := by
  have none : ∃ k, h = h ++ k ∧ Adds s k := ⟨[], (List.append_nil h).symm, .calm (by simp)⟩
  cases m with
  | quiet | close | attach | detach | tune | aim | early | skipTo | begin | lost
  | skipEmpty | dupBegin | dupNext | dupSkip => exact none
  | note n | reset | select | erased | notErased | hide | noEntry | headerHash | fde =>
    exact ⟨_, rfl, .one trivial⟩
  | bulk hc state which found touches =>
    exact ⟨_, rfl, .calm (touches.calm fun w o r ⟨offset, hw, _⟩ f => by rw [hw]; rintro ⟨⟩)⟩
  | field hc state first lt header possible ran =>
    refine ⟨_, rfl, .one ?_⟩
    rcases header with rfl | rfl | rfl <;> trivial
  | accept hc erased accepts => exact ⟨_, rfl, .images _ _ _⟩
  | emptyFs1 | dupPlace =>
    refine ⟨_, rfl, .calm fun w hw => ?_⟩
    simp only [List.mem_cons, List.not_mem_nil, or_false] at hw
    rcases hw with rfl | rfl <;> trivial
  | place hs hc current count len placed entered first handle reset =>
    refine ⟨_, List.append_assoc .., .calm (calm_append (fun w hw => ?_) ?_)⟩
    · simp only [List.mem_cons, List.not_mem_nil, or_false] at hw
      rcases hw with rfl | rfl <;> trivial
    · split at first
      · rw [first.1]
        simp
      · exact first.calm
  | chunk bufOffset hc current part ne fit ahead write next =>
    rename_i la lb ln _ _ _ _ _
    refine ⟨la ++ (lb ++ ln), by simp only [List.append_assoc],
      .calm (calm_append ?_ (calm_append write.calm ?_))⟩
    · split at ahead
      · exact ahead.calm
      · rw [ahead.1]
        simp
    · split at next
      · exact next.calm
      · rw [next.1]
        simp
  | spoil bufOffset hc current part fit ahead write =>
    rename_i la lb _ _ _ _ _
    refine ⟨la ++ lb, List.append_assoc .., .calm (calm_append ?_ ?_)⟩
    · split at ahead
      · exact ahead.calm
      · rw [ahead.1]
        simp
    · split at write
      · exact write.calm
      · rw [write.1]
        simp
  | complete hs hc current part pos full notes q hash =>
    refine ⟨_, List.append_assoc .., .calm (calm_append (fun w hw => ?_) fun w hw => ?_)⟩
    · obtain ⟨n, rfl⟩ := notes w hw
      trivial
    · rw [List.mem_singleton.mp hw]
      trivial
  | giveUp hs hc state events q =>
    refine ⟨_, rfl, .calm fun w hw => ?_⟩
    rcases events w hw with ⟨n, rfl⟩ | ⟨i, b, rfl⟩ <;> trivial
  | dupWork hc state part imageHdr hdr touches =>
    exact ⟨_, rfl, .calm (touches.calm fun w o r ⟨offset, hw, _⟩ f => by rw [hw]; rintro ⟨⟩)⟩
  | validate hc state lt possible ran => exact ⟨_, rfl, .status _ _ hc state⟩

/-! ## What a session has shown -/

/-- Events within a session after its header. -/
def Inner : Event → Prop
  | .start => False
  | .images _ _ _ => False
  | _ => True

theorem Inner.ne_start {w : Event} (h : Inner w) : w ≠ .start := by
  rintro rfl
  exact h

theorem Calm.inner {w : Event} (h : Calm w) : Inner w := by
  cases w <;> trivial

/-- Acknowledged writes of consecutive pieces of image `i`, from `offset` on. -/
def writes (i : Nat) (c : Client) : Nat → List (List UInt8) → List Event
  | _, [] => []
  | offset, bytes :: rest =>
    .op (.image i c offset) (c.writeOp offset bytes) .done :: writes i c (offset + bytes.length) rest

/-- The flash has acknowledged the writes of the first `count` bytes of image `i`, in order. -/
def Written (l : List Event) (i : Nat) (c : Client) (count : Nat) : Prop :=
  ∃ pieces, (writes i c 0 pieces).Sublist l ∧ pieces.flatten.length = count

theorem Written.none (l : List Event) (i : Nat) (c : Client) : Written l i c 0 :=
  ⟨[], List.nil_sublist l, rfl⟩

theorem Written.append {l : List Event} {i count : Nat} {c : Client} (h : Written l i c count)
    (k : List Event) : Written (l ++ k) i c count := by
  obtain ⟨pieces, sub, len⟩ := h
  exact ⟨pieces, sub.trans (List.sublist_append_left l k), len⟩

theorem writes_append (i : Nat) (c : Client) (offset : Nat) (pieces : List (List UInt8))
    (bytes : List UInt8) : writes i c offset (pieces ++ [bytes]) = writes i c offset pieces ++
      [.op (.image i c (offset + pieces.flatten.length))
        (c.writeOp (offset + pieces.flatten.length) bytes) .done] := by
  induction pieces generalizing offset with
  | nil => rfl
  | cons p pieces ih =>
    simp only [List.cons_append, writes, ih, List.flatten_cons, List.length_append, Nat.add_assoc]

/-- One more acknowledged write. -/
theorem Written.more {l k : List Event} {i count : Nat} {c : Client} (h : Written l i c count)
    {bytes : List UInt8} (mem : .op (.image i c count) (c.writeOp count bytes) .done ∈ k) :
    Written (l ++ k) i c (count + bytes.length) := by
  obtain ⟨pieces, sub, rfl⟩ := h
  refine ⟨pieces ++ [bytes], ?_, by simp⟩
  rw [writes_append, Nat.zero_add]
  exact sub.append (List.singleton_sublist.mpr mem)

/-- Image `i` was verified after it had been written to its own partition of FWD `f`. -/
def Verified (l : List Event) (f i : Nat) (img : ImageHdr) : Prop :=
  ∃ before c bytes after, l = before ++ .hashed (some i) bytes true :: after ∧
    c.fwdIdx = f ∧ c.imgId = img.imageId ∧ .created i c ∈ before ∧
    Written before i c img.imageLength

theorem Verified.append {l : List Event} {f i : Nat} {img : ImageHdr} (h : Verified l f i img)
    (k : List Event) : Verified (l ++ k) f i img := by
  obtain ⟨before, c, bytes, after, rfl, fwd, id, created, written⟩ := h
  exact ⟨before, c, bytes, after ++ k, by simp, fwd, id, created, written⟩

/-- The last header accepted in `l`: before it come `pre`, after it `post`. -/
structure LastHeader (l : List Event) (pre : List Event) (raw hdrs : List ImageHdr)
    (flags : Nat → Bool) (post : List Event) : Prop where
  eq : l = pre ++ .images raw hdrs flags :: post
  last : ∀ raw hdrs flags, .images raw hdrs flags ∉ post
  hash : ∃ bytes, .hashed none bytes true ∈ pre

theorem LastHeader.append {l pre post k : List Event} {raw hdrs : List ImageHdr} {flags : Nat → Bool}
    (h : LastHeader l pre raw hdrs flags post) (inner : ∀ w ∈ k, Inner w) :
    LastHeader (l ++ k) pre raw hdrs flags (post ++ k) where
  eq := by rw [h.eq, List.append_assoc, List.cons_append]
  last := by
    intro raw hdrs flags mem
    rcases List.mem_append.mp mem with mem | mem
    · exact h.last raw hdrs flags mem
    · exact inner _ mem
  hash := h.hash

/-- The image being received: it is placed, and its data is written up to the count. -/
structure Receiving (s : St) (c : Cxt) (hdrs : List ImageHdr) (l : List Event)
    (client : Client) : Prop where
  fwd : client.fwdIdx = c.trialFwdIdx
  created : .created c.imageIndex client ∈ l
  fit : c.imageWrtCount ≤ c.imageWrtLength
  written : Written l c.imageIndex client c.imageWrtCount
  image : ∃ img, hdrs[c.imageIndex]? = some img ∧ client.imgId = img.imageId ∧
    c.imageWrtLength = img.imageLength

/-- What is known of a session that has accepted its header. -/
structure GateAt (s : St) (c : Cxt) (l pre : List Event) (raw hdrs : List ImageHdr)
    (post : List Event) : Prop where
  erased : c.fwUpgradeState.erased = true
  header : LastHeader l pre raw hdrs c.downloadFlag post
  imageHdr : s.imageHdr = some hdrs
  total : hdrs.length = c.totalImages
  done : ∀ i img, i < c.imageIndex → hdrs[i]? = some img → c.downloadFlag i = true →
    0 < img.imageLength → Verified post c.trialFwdIdx i img
  receiving : c.imageIndex < c.totalImages → ∀ client, s.partition = some client →
    Receiving s c hdrs post client

/-- The gate's invariant. -/
def Gate (s : St) (l : List Event) : Prop :=
  ∀ c, s.cxt = some c → c.isFirst = false → ∃ pre raw hdrs post, GateAt s c l pre raw hdrs post

/-- What the header has fixed. -/
structure Fixed (c c' : Cxt) : Prop where
  flags : c'.downloadFlag = c.downloadFlag
  total : c'.totalImages = c.totalImages
  fwd : c'.trialFwdIdx = c.trialFwdIdx

/-- The fields the gate looks at. -/
structure Alike (c c' : Cxt) : Prop extends Fixed c c' where
  index : c'.imageIndex = c.imageIndex
  count : c'.imageWrtCount = c.imageWrtCount
  length : c'.imageWrtLength = c.imageWrtLength

theorem Fixed.refl (c : Cxt) : Fixed c c := ⟨rfl, rfl, rfl⟩

theorem Alike.refl (c : Cxt) : Alike c c := ⟨.refl c, rfl, rfl, rfl⟩

section GateAt
variable {s t : St} {c c' : Cxt} {h k l pre post : List Event} {raw hdrs : List ImageHdr}

/-- The images from the old index up to the new one have been dealt with. -/
theorem GateAt.change (g : GateAt s c l pre raw hdrs post) (inner : ∀ w ∈ k, Inner w)
    (fixed : Fixed c c') (erased : c'.fwUpgradeState.erased = true)
    (imageHdr : t.imageHdr = s.imageHdr)
    (done : ∀ i img, c.imageIndex ≤ i → i < c'.imageIndex → hdrs[i]? = some img →
      c.downloadFlag i = true → 0 < img.imageLength → Verified (post ++ k) c.trialFwdIdx i img)
    (receiving : c'.imageIndex < c.totalImages → ∀ client, t.partition = some client →
      Receiving t c' hdrs (post ++ k) client) :
    GateAt t c' (l ++ k) pre raw hdrs (post ++ k) := by
  obtain ⟨flags, total, fwd⟩ := fixed
  constructor
  · exact erased
  · rw [flags]
    exact g.header.append inner
  · rw [imageHdr]
    exact g.imageHdr
  · rw [total]
    exact g.total
  · intro i img lt hdr flag pos
    rw [flags] at flag
    rw [fwd]
    by_cases before : i < c.imageIndex
    · exact (g.done i img before hdr flag pos).append k
    · exact done i img (Nat.not_lt.mp before) lt hdr flag pos
  · rw [total]
    exact receiving

theorem Receiving.append {client : Client} (r : Receiving s c hdrs l client) (alike : Alike c c')
    (k : List Event) : Receiving t c' hdrs (l ++ k) client := by
  obtain ⟨⟨-, -, fwd⟩, index, count, length⟩ := alike
  constructor
  · rw [fwd]
    exact r.fwd
  · rw [index]
    exact List.mem_append_left k r.created
  · rw [count, length]
    exact r.fit
  · rw [index, count]
    exact r.written.append k
  · rw [index, length]
    exact r.image

theorem GateAt.keep (g : GateAt s c l pre raw hdrs post) (inner : ∀ w ∈ k, Inner w)
    (alike : Alike c c') (erased : c'.fwUpgradeState.erased = c.fwUpgradeState.erased)
    (imageHdr : t.imageHdr = s.imageHdr)
    (part : t.partition = s.partition ∨ t.partition = none) :
    GateAt t c' (l ++ k) pre raw hdrs (post ++ k) := by
  refine g.change inner alike.toFixed (erased.trans g.erased) imageHdr (fun i img le lt => ?_)
    fun lt client hp => ?_
  · rw [alike.index] at lt
    omega
  · rw [alike.index] at lt
    rcases part with part | part
    · rw [part] at hp
      exact (g.receiving lt client hp).append alike k
    · rw [part] at hp
      cases hp

theorem Gate.first (hc : s.cxt = some c) (first : c.isFirst = true) : Gate s l := by
  intro c' hc'
  cases hc.symm.trans hc'
  intro hf
  cases first.symm.trans hf

/-- A step of a session that has its header. -/
theorem Gate.change (g : Gate s (session h)) (inner : ∀ w ∈ k, Inner w) (hc : s.cxt = some c)
    (hc' : t.cxt = some c') (first : c'.isFirst = c.isFirst)
    (step : ∀ {pre raw hdrs post}, c.isFirst = false → GateAt s c (session h) pre raw hdrs post →
      GateAt t c' (session h ++ k) pre raw hdrs (post ++ k)) : Gate t (session (h ++ k)) := by
  intro d hd hf
  cases hc'.symm.trans hd
  rw [first] at hf
  obtain ⟨pre, raw, hdrs, post, at_⟩ := g c hc hf
  rw [session_append h fun w hw => (inner w hw).ne_start]
  exact ⟨pre, raw, hdrs, post ++ k, step hf at_⟩

/-- The session is still before its header, or its gate is kept. -/
theorem Gate.keep (g : Gate s (session h)) (inner : ∀ w ∈ k, Inner w) (hc : s.cxt = some c)
    (hc' : t.cxt = some c') (first : c'.isFirst = c.isFirst) (alike : Alike c c')
    (erased : c.fwUpgradeState.erased = true →
      c'.fwUpgradeState.erased = c.fwUpgradeState.erased)
    (imageHdr : t.imageHdr = s.imageHdr)
    (part : t.partition = s.partition ∨ t.partition = none) : Gate t (session (h ++ k)) := by
  exact g.change inner hc hc' first fun _ at_ =>
    at_.keep inner alike (erased at_.erased) imageHdr part

/-- Only the devices change. -/
theorem Gate.same (g : Gate s (session h)) (inner : ∀ w ∈ k, Inner w) (cxt : t.cxt = s.cxt)
    (imageHdr : t.imageHdr = s.imageHdr) (part : t.partition = s.partition) :
    Gate t (session (h ++ k)) := by
  intro c hc
  have hs := cxt ▸ hc
  exact g.keep inner hs hc rfl (.refl c) (fun _ => rfl) imageHdr (.inl part) c hc

end GateAt

/-! ## Late states -/

/-- A late session has its header and has dealt with all images. -/
def Late (s : St) : Prop :=
  ∀ c, s.cxt = some c → c.fwUpgradeState.late = true →
    c.isFirst = false ∧ c.totalImages ≤ c.imageIndex

theorem Late.of_state {s : St} {c : Cxt} (hc : s.cxt = some c)
    (h : c.fwUpgradeState.late = true → c.isFirst = false ∧ c.totalImages ≤ c.imageIndex) :
    Late s := by
  intro c' hc'
  cases hc.symm.trans hc'
  exact h

theorem Late.same {s t : St} (late : Late s) (cxt : t.cxt = s.cxt) : Late t := by
  intro c hc
  exact late c (cxt ▸ hc)

theorem Late.keep {s t : St} {c c' : Cxt} (late : Late s) (hc : s.cxt = some c)
    (hc' : t.cxt = some c') (state : c'.fwUpgradeState = c.fwUpgradeState)
    (first : c'.isFirst = c.isFirst) (total : c'.totalImages = c.totalImages)
    (index : c.imageIndex ≤ c'.imageIndex) : Late t := by
  refine .of_state hc' fun h => ?_
  obtain ⟨header, done⟩ := late c hc (state ▸ h)
  rw [total]
  exact ⟨first.trans header, Nat.le_trans done index⟩

theorem Move.late {s t : St} {h h' : List Event} (m : Move e retry (s, h) (t, h'))
    (late : Late s) : Late t := by
  cases m with
  | quiet q => exact late.same q.cxt
  | note | reset | headerHash => exact late.same rfl
  | close hs =>
    intro c hc
    cases hc
  | attach hs k hc first => exact late.keep hc rfl rfl rfl rfl (Nat.le_refl _)
  | detach hs hc => exact late.keep hc rfl rfl rfl rfl (Nat.le_refl _)
  | tune bufLen bufOffset hidden config state hc edge =>
    exact .of_state rfl fun h => (edge.late h).elim (late _ hc) id
  | aim fwdIdx start size hc state => exact late.keep hc rfl rfl rfl rfl (Nat.le_refl _)
  | select hc state selected q other => exact .of_state rfl fun h => by cases h
  | erased hc state lt possible ran => exact .of_state rfl fun h => by cases h
  | notErased hc state lt bad possible ran => exact late.same ran.cxt
  | bulk hc state which found touches => exact late.same touches.cxt
  | hide hc state first fwd hidden entered => exact late.same entered.touches.cxt
  | early imageHdr format count total sblStart sblSize sblIdx flags digest hc first =>
    exact .of_state rfl fun h => by cases first.symm.trans (late _ hc h).1
  | field hc state first lt header possible ran => exact late.same ran.cxt
  | accept hc erased accepts =>
    refine .of_state rfl fun h => ?_
    have next := accepts.next
    split at next
    · rw [next] at h
      cases h
    · rcases next with rfl | rfl <;> cases h
  | skipTo index hc state loose le skipped => exact late.keep hc rfl rfl rfl rfl le
  | emptyFs1 hs hc state loose first empty fwd id entered =>
    exact late.keep hc rfl rfl rfl rfl (Nat.le_succ _)
  | begin hc current len => exact late.keep hc rfl rfl rfl rfl (Nat.le_refl _)
  | noEntry hc state fwd bad entered => exact late.same entered.touches.cxt
  | place hs hc current count len placed entered first handle reset =>
    exact late.keep hc rfl rfl rfl rfl (Nat.le_refl _)
  | chunk bufOffset hc current part ne fit ahead write next =>
    exact late.keep hc rfl rfl rfl rfl (Nat.le_refl _)
  | spoil bufOffset hc current part fit ahead write => exact late.keep hc rfl rfl rfl rfl (Nat.le_refl _)
  | lost bufOffset hc state loose => exact late.keep hc rfl rfl rfl rfl (Nat.le_refl _)
  | complete hs hc current part pos full notes q hash =>
    exact late.keep hc rfl rfl rfl rfl (Nat.le_succ _)
  | giveUp hs hc state events q => exact late.keep hc rfl rfl rfl rfl (Nat.le_refl _)
  | skipEmpty hs hc current empty len format =>
    exact late.keep hc rfl rfl rfl rfl (Nat.le_succ _)
  | dupBegin hc state again => exact late.keep hc rfl rfl rfl rfl (Nat.le_refl _)
  | dupPlace hs hc state loose imageHdr hdr flag special fwd id start size entered handle =>
    exact late.keep hc rfl rfl rfl rfl (Nat.le_refl _)
  | dupWork hc state part imageHdr hdr touches => exact late.same touches.cxt
  | dupNext hs hc state held imageHdr hdr flag special => exact late.keep hc rfl rfl rfl rfl (Nat.le_refl _)
  | dupSkip hc state loose imageHdr hdr kept => exact late.keep hc rfl rfl rfl rfl (Nat.le_refl _)
  | validate hc state lt possible ran => exact late.same ran.cxt
  | fde hc state possible ran => exact late.same ran.cxt

/-! ## The gate is kept -/

theorem Gate.vacuous {s : St} {c : Cxt} {l : List Event} (hc : s.cxt = some c)
    (no : c.isFirst = false → False) : Gate s l := by
  intro c' hc' hf
  cases hc.symm.trans hc'
  exact (no hf).elim

theorem inner_of_calm {k : List Event} (calm : ∀ w ∈ k, Calm w) : ∀ w ∈ k, Inner w :=
  fun w hw => (calm w hw).inner

theorem inner_nil : ∀ w ∈ ([] : List Event), Inner w := by simp

theorem inner_one {w : Event} (inner : Inner w) : ∀ v ∈ [w], Inner v :=
  fun _ hv => List.mem_singleton.mp hv ▸ inner

theorem inner_two {v w : Event} (hv : Inner v) (hw : Inner w) : ∀ u ∈ [v, w], Inner u := by
  intro u hu
  rcases List.mem_cons.mp hu with rfl | hu
  · exact hv
  · exact List.mem_singleton.mp hu ▸ hw

theorem partition_same {s t : St} {c c' : Cxt} (hc : s.cxt = some c) (hc' : t.cxt = some c')
    (hdl : c'.partitionHdl = c.partitionHdl) (handles : t.handles = s.handles) :
    t.partition = s.partition := by
  unfold St.partition
  rw [hc, hc', handles]
  simp only [Option.bind_eq_bind, Option.bind_some, hdl]

theorem partition_back {s t : St} {c c' : Cxt} {client : Client} (hp : t.partition = some client)
    (hc : s.cxt = some c) (hc' : t.cxt = some c') (hdl : c'.partitionHdl = c.partitionHdl)
    (handles : t.handles = s.handles) : s.partition = some client :=
  partition_same hc hc' hdl handles ▸ hp

theorem partition_free {t : St} {c : Cxt} (hc : t.cxt = some c) (hdl : c.partitionHdl = none) :
    t.partition = none := by
  unfold St.partition
  simp only [hc, hdl, Option.bind_eq_bind, Option.bind_some, Option.bind_none]

theorem partition_at {t : St} {c : Cxt} {k : Nat} {client client' : Client} (hc : t.cxt = some c)
    (hdl : c.partitionHdl = some k) (handle : t.handles k = client)
    (hp : t.partition = some client') : client' = client := by
  rw [partition_held hc hdl, handle] at hp
  exact (Option.some.inj hp).symm

/-- The gate after a step that adds nothing to the history. -/
theorem Gate.silent {s t : St} {c c' : Cxt} {h : List Event} (g : Gate s (session h))
    (hc : s.cxt = some c) (hc' : t.cxt = some c') (first : c'.isFirst = c.isFirst)
    (step : ∀ {pre raw hdrs post}, c.isFirst = false → GateAt s c (session h) pre raw hdrs post →
      GateAt t c' (session h ++ []) pre raw hdrs (post ++ [])) : Gate t (session h) := by
  have := g.change inner_nil hc hc' first step
  rwa [List.append_nil] at this

theorem WriteRun.mem {who : Issuer} {c : Client} {offset : Nat} {bytes : List UInt8} {s t : St}
    {l : List Event} (h : WriteRun e who c offset bytes s l t true) :
    .op who (c.writeOp offset bytes) .done ∈ l := by
  cases h with
  | done fits around quiet possible ran =>
    rcases around with rfl | rfl
    · exact List.mem_singleton_self _
    · simp

/-- What a write to an image does besides, with the erases around it. -/
theorem chunk_touches {s a b n : St} {la lb ln : List Event} {i off : Nat} {c : Client}
    {bytes : List UInt8} {p q : Prop} [Decidable p] [Decidable q] {o₁ z₁ o₂ z₂ : Nat} {ok r : Bool}
    (ahead : if p then EraseRun e (.image i c o₁) c o₁ z₁ s la a true else la = [] ∧ a = s)
    (write : WriteRun e (.image i c off) c off bytes a lb b ok)
    (next : if q then EraseRun e (.image i c o₂) c o₂ z₂ b ln n r else ln = [] ∧ n = b) :
    Touches e (fun who _ _ => ∃ o, who = .image i c o) s (la ++ (lb ++ ln)) n := by
  have first : Touches e (fun who _ _ => ∃ o, who = .image i c o) s la a := by
    split at ahead
    · exact ahead.touches.mono fun w o r h => ⟨_, h.1⟩
    · obtain ⟨rfl, rfl⟩ := ahead
      exact .refl _
  have last : Touches e (fun who _ _ => ∃ o, who = .image i c o) b ln n := by
    split at next
    · exact next.touches.mono fun w o r h => ⟨_, h.1⟩
    · obtain ⟨rfl, rfl⟩ := next
      exact .refl _
  exact first.trans ((write.touches.mono fun w o r h => ⟨_, h.1⟩).trans last)

theorem spoil_touches {s a b : St} {la lb : List Event} {i off o₁ z₁ : Nat} {c : Client}
    {bytes : List UInt8} {p : Prop} [Decidable p] {ok : Bool}
    (ahead : if p then EraseRun e (.image i c o₁) c o₁ z₁ s la a ok
      else la = [] ∧ a = s ∧ ok = true)
    (write : if ok = true then WriteRun e (.image i c off) c off bytes a lb b false
      else lb = [] ∧ b = a) :
    Touches e (fun who _ _ => ∃ o, who = .image i c o) s (la ++ lb) b := by
  have first : Touches e (fun who _ _ => ∃ o, who = .image i c o) s la a := by
    split at ahead
    · exact ahead.touches.mono fun w o r h => ⟨_, h.1⟩
    · obtain ⟨rfl, rfl, -⟩ := ahead
      exact .refl _
  apply first.trans
  split at write
  · exact write.touches.mono fun w o r h => ⟨_, h.1⟩
  · obtain ⟨rfl, rfl⟩ := write
    exact .refl _

theorem Touches.inner {P : Issuer → Op → Outcome → Prop} {s t : St} {l : List Event}
    (h : Touches e P s l t) : ∀ w ∈ l, Inner w := by
  intro w hw
  rcases h.events w hw with ⟨n, rfl⟩ | ⟨w, o, r, rfl, -⟩ <;> trivial

theorem Accepts.gate {s : St} {h : List Event} {c : Cxt} {raw hdrs : List ImageHdr} {a : EntrySums}
    {state : FwState} (accepts : Accepts e s h c raw hdrs a state) :
    Gate { s with cxt := some { c with isFirst := false, fwUpgradeState := state } }
      (session (h ++ [.images raw hdrs c.downloadFlag])) := by
  intro d hd _
  cases hd
  have state_cases : state = .disconnectServer ∨ state = .receiveData ∨ state = .processImage := by
    have next := accepts.next
    split at next
    · exact .inl next
    · exact .inr next
  rw [session_append h (by simp)]
  refine ⟨session h, raw, hdrs, [], ?_, ⟨rfl, by simp, accepts.verified⟩, accepts.imageHdr, ?_,
    ?_, ?_⟩
  · rcases state_cases with rfl | rfl | rfl <;> rfl
  · exact (checkEntries_length accepts.checked).trans accepts.total.symm
  · intro i img lt
    change i < c.imageIndex at lt
    rw [accepts.fresh.1] at lt
    cases lt
  · intro _ client hp
    rw [partition_free rfl (by exact accepts.loose)] at hp
    cases hp

theorem Move.gate {s t : St} {h h' : List Event} (m : Move e retry (s, h) (t, h'))
    (late : Late s) (g : Gate s (session h)) : Gate t (session h') := by
  cases m with
  | quiet q =>
    have := g.same inner_nil q.cxt q.imageHdr q.partition
    rwa [List.append_nil] at this
  | note n => exact g.same (inner_one trivial) rfl rfl rfl
  | reset => exact g.same (inner_one trivial) rfl rfl rfl
  | headerHash bytes equal hc first => exact g.same (inner_one trivial) rfl rfl rfl
  | close hs =>
    intro c hc
    cases hc
  | attach hs k hc first => exact .first rfl first
  | detach hs hc =>
    exact g.silent hc rfl rfl fun _ at_ =>
      at_.keep inner_nil ⟨⟨rfl, rfl, rfl⟩, rfl, rfl, rfl⟩ rfl rfl (.inr rfl)
  | tune bufLen bufOffset hidden config state hc edge =>
    exact g.silent hc rfl rfl fun _ at_ =>
      at_.keep inner_nil ⟨⟨rfl, rfl, rfl⟩, rfl, rfl, rfl⟩ edge.erased rfl
        (.inl (partition_same hc rfl rfl rfl))
  | aim fwdIdx start size hc state =>
    apply Gate.vacuous rfl
    intro first
    obtain ⟨_, _, _, _, at_⟩ := g _ hc first
    have := at_.erased
    rw [state] at this
    cases this
  | select hc state selected q other =>
    apply Gate.vacuous rfl
    intro first
    obtain ⟨_, _, _, _, at_⟩ := g _ hc first
    have := at_.erased
    rw [state] at this
    cases this
  | erased hc state lt possible ran =>
    apply Gate.vacuous rfl
    intro first
    obtain ⟨_, _, _, _, at_⟩ := g _ hc first
    have := at_.erased
    rw [state] at this
    cases this
  | notErased hc state lt bad possible ran =>
    exact g.same (inner_one trivial) ran.cxt ran.imageHdr ran.partition
  | bulk hc state which found touches =>
    exact g.same (inner_of_calm (touches.calm fun w o r ⟨offset, hw, _⟩ f => by
      rw [hw]
      rintro ⟨⟩)) touches.cxt touches.imageHdr touches.partition
  | hide hc state first fwd hidden entered =>
    exact g.same (inner_one trivial) entered.touches.cxt entered.touches.imageHdr
      entered.touches.partition
  | early imageHdr format count total sblStart sblSize sblIdx flags digest hc first =>
    exact .first rfl first
  | field hc state first lt header possible ran =>
    exact g.same (inner_one trivial) ran.cxt ran.imageHdr ran.partition
  | noEntry hc state fwd bad entered =>
    exact g.same (inner_one trivial) entered.touches.cxt entered.touches.imageHdr
      entered.touches.partition
  | dupWork hc state part imageHdr hdr touches =>
    exact g.same (inner_of_calm (touches.calm fun w o r ⟨offset, hw, _⟩ f => by
      rw [hw]
      rintro ⟨⟩)) touches.cxt touches.imageHdr touches.partition
  | validate hc state lt possible ran =>
    exact g.same (inner_one trivial) ran.cxt ran.imageHdr ran.partition
  | fde hc state possible ran =>
    exact g.same (inner_one trivial) ran.cxt ran.imageHdr ran.partition
  | accept hc erased accepts => exact accepts.gate
  | skipTo index hc state loose le skipped =>
    refine g.silent hc rfl rfl fun _ at_ => at_.change inner_nil ⟨rfl, rfl, rfl⟩ at_.erased
      rfl (fun i img hi lt hdr flag => ?_) fun _ client hp => ?_
    · cases (skipped i hi lt).symm.trans flag
    · rw [partition_free rfl (by exact loose)] at hp
      cases hp
  | emptyFs1 hs hc state loose first empty fwd id entered =>
    refine g.change (inner_two trivial trivial) hc rfl rfl fun _ at_ =>
      at_.change (inner_two trivial trivial) ⟨rfl, rfl, rfl⟩ at_.erased
        entered.touches.imageHdr (fun i img hi lt hdr _ pos => ?_) fun _ client hp => ?_
    · cases Nat.le_antisymm hi (Nat.lt_succ_iff.mp lt)
      rw [(empty _ _ at_.imageHdr hdr).2] at pos
      cases pos
    · rw [partition_free rfl (by exact loose)] at hp
      cases hp
  | begin hc current len =>
    obtain ⟨hdrs', imageHdr, hdr⟩ := current.hdr
    refine g.silent hc rfl rfl fun _ at_ => at_.change inner_nil ⟨rfl, rfl, rfl⟩ at_.erased
      rfl (fun i img hi lt => absurd lt (Nat.not_lt.mpr hi)) fun lt client hp => ?_
    have r := at_.receiving lt client (partition_back hp hc rfl rfl rfl)
    cases at_.imageHdr.symm.trans imageHdr
    obtain ⟨img', hdr', id, -⟩ := r.image
    cases hdr.symm.trans hdr'
    rw [List.append_nil]
    exact ⟨r.fwd, r.created, Nat.zero_le _, .none _ _ _, _, hdr, id, rfl⟩
  | place hs hc current count len placed entered first handle reset =>
    obtain ⟨hdrs', imageHdr, hdr⟩ := current.hdr
    rename_i t₁ u l c img client ready k digest
    have inner : ∀ w ∈ l, Inner w := by
      split at first
      · rw [first.1]
        exact inner_nil
      · exact first.touches.inner
    have kept : u.imageHdr = s.imageHdr := by
      have first : u.imageHdr = t₁.imageHdr := by
        split at first
        · rw [first.2.1]
        · exact first.touches.imageHdr
      exact first.trans entered.touches.imageHdr
    rw [List.append_assoc]
    refine g.change (fun w hw => ?_) hc rfl rfl fun _ at_ => at_.change (fun w hw => ?_)
      ⟨rfl, rfl, rfl⟩ at_.erased kept
      (fun i img hi lt => absurd lt (Nat.not_lt.mpr hi)) fun lt client' hp => ?_
    · exact (List.mem_append.mp hw).elim (inner_two (by trivial) (by trivial) w) (inner w)
    · exact (List.mem_append.mp hw).elim (inner_two (by trivial) (by trivial) w) (inner w)
    · cases partition_at rfl (by rfl) handle hp
      cases at_.imageHdr.symm.trans imageHdr
      refine ⟨placed.fwd, ?_, ?_, ?_, img, hdr, placed.id, len⟩
      · simp
      · rw [count]
        exact Nat.zero_le _
      · rw [count]
        exact .none _ _ _
  | chunk bufOffset hc current part ne fit ahead write next =>
    have touches := chunk_touches ahead write next
    simp only [List.append_assoc]
    refine g.change touches.inner hc rfl rfl fun _ at_ => at_.change touches.inner ⟨rfl, rfl, rfl⟩
      at_.erased touches.imageHdr
      (fun i img hi lt => absurd lt (Nat.not_lt.mpr hi)) fun lt client' hp => ?_
    have hp := partition_back hp (touches.cxt.trans hc) rfl rfl rfl
    rw [touches.partition] at hp
    cases part.symm.trans hp
    have r := at_.receiving lt _ hp
    refine ⟨r.fwd, List.mem_append_left _ r.created, fit, r.written.more ?_, r.image⟩
    exact List.mem_append_right _ (List.mem_append_left _ write.mem)
  | spoil bufOffset hc current part fit ahead write =>
    have touches := spoil_touches ahead write
    rw [List.append_assoc]
    refine g.change touches.inner hc rfl rfl fun _ at_ => at_.keep touches.inner
      ⟨⟨rfl, rfl, rfl⟩, rfl, rfl, rfl⟩ rfl touches.imageHdr (.inl ?_)
    rw [← touches.partition]
    exact partition_same (touches.cxt.trans hc) (by rfl) (by rfl) rfl
  | lost bufOffset hc state loose =>
    exact g.silent hc rfl rfl fun _ at_ => at_.keep inner_nil ⟨⟨rfl, rfl, rfl⟩, rfl, rfl, rfl⟩ rfl
      rfl (.inl (partition_same hc rfl rfl rfl))
  | complete hs hc current part pos full notes q hash =>
    obtain ⟨hdrs', imageHdr, hdr⟩ := current.hdr
    rename_i l c img client
    have inner : ∀ w ∈ l ++ [.hashed (some c.imageIndex)
        (c.digest.update (hashPadding c.format img)).bytes true], Inner w := by
      intro w hw
      rcases List.mem_append.mp hw with hw | hw
      · obtain ⟨n, rfl⟩ := notes w hw
        trivial
      · exact inner_one (by trivial) w hw
    rw [List.append_assoc]
    refine g.change inner hc rfl rfl fun _ at_ => at_.change inner ⟨rfl, rfl, rfl⟩ at_.erased
      q.imageHdr (fun i img' hi lt hdr' flag pos' => ?_) fun _ client' hp => ?_
    · cases Nat.le_antisymm hi (Nat.lt_succ_iff.mp lt)
      have r := at_.receiving current.lt client part
      obtain ⟨img₁, hdr₁, id, len⟩ := r.image
      cases hdr'.symm.trans hdr₁
      refine ⟨_, client, _, [], (List.append_assoc ..).symm, r.fwd, id, ?_, ?_⟩
      · exact List.mem_append_left _ r.created
      · rw [← len, ← Nat.le_antisymm r.fit full]
        exact r.written.append _
    · rw [partition_free rfl (by rfl)] at hp
      cases hp
  | giveUp hs hc state events q =>
    have inner : ∀ w ∈ _, Inner w := fun w hw => by
      rcases events w hw with ⟨n, rfl⟩ | ⟨i, b, rfl⟩ <;> trivial
    exact g.change inner hc rfl rfl fun _ at_ => at_.keep inner ⟨⟨rfl, rfl, rfl⟩, rfl, rfl, rfl⟩ rfl
      q.imageHdr (.inr (partition_free rfl (by rfl)))
  | skipEmpty hs hc current empty len format =>
    obtain ⟨hdrs', imageHdr, hdr⟩ := current.hdr
    refine g.silent hc rfl rfl fun _ at_ => at_.change inner_nil ⟨rfl, rfl, rfl⟩ at_.erased
      rfl (fun i img' hi lt hdr' _ pos => ?_) fun _ client' hp => ?_
    · cases Nat.le_antisymm hi (Nat.lt_succ_iff.mp lt)
      cases at_.imageHdr.symm.trans imageHdr
      cases hdr.symm.trans hdr'
      rw [empty] at pos
      cases pos
    · rw [partition_free rfl (by rfl)] at hp
      cases hp
  | dupBegin hc state again =>
    exact g.silent hc rfl rfl fun _ at_ => at_.keep inner_nil ⟨⟨rfl, rfl, rfl⟩, rfl, rfl, rfl⟩ rfl
      rfl (.inl (partition_same hc rfl rfl rfl))
  | dupPlace hs hc state loose imageHdr hdr flag special fwd id start size entered handle =>
    refine g.change (inner_two trivial trivial) hc rfl rfl fun _ at_ => at_.change
      (inner_two trivial trivial) ⟨rfl, rfl, rfl⟩ at_.erased entered.touches.imageHdr
      (fun i img hi lt => absurd lt (Nat.not_lt.mpr hi)) fun lt client' hp => ?_
    exact absurd lt (Nat.not_lt.mpr (late _ hc (by rw [state]; rfl)).2)
  | dupNext hs hc state held imageHdr hdr flag special =>
    exact g.silent hc rfl rfl fun _ at_ => at_.keep inner_nil ⟨⟨rfl, rfl, rfl⟩, rfl, rfl, rfl⟩ rfl
      rfl (.inr (partition_free rfl (by rfl)))
  | dupSkip hc state loose imageHdr hdr kept =>
    exact g.silent hc rfl rfl fun _ at_ => at_.keep inner_nil ⟨⟨rfl, rfl, rfl⟩, rfl, rfl, rfl⟩ rfl
      rfl (.inl (partition_same hc rfl rfl rfl))

/-! ## What the status rests on -/

/-- After `l`, FWD `f` may become valid: its header has been verified, and since then
every image that is downloaded and not empty. -/
def Through (l : List Event) (f : Nat) : Prop :=
  ∃ pre raw hdrs flags post, LastHeader l pre raw hdrs flags post ∧
    ∀ i img, hdrs[i]? = some img → flags i = true → 0 < img.imageLength → Verified post f i img

/-- No status is written but through the gate. -/
def Gated (l : List Event) : Prop :=
  ∀ before f op out after, l = before ++ .op (.info f .status) op out :: after → Through before f

theorem LastHeader.prepend {l pre post : List Event} {raw hdrs : List ImageHdr} {flags : Nat → Bool}
    (h : LastHeader l pre raw hdrs flags post) (k : List Event) :
    LastHeader (k ++ l) (k ++ pre) raw hdrs flags post where
  eq := by rw [h.eq, List.append_assoc]
  last := h.last
  hash := h.hash.imp fun _ mem => List.mem_append_right k mem

theorem session_suffix (h : List Event) : session h <:+ h := by
  induction h using List.reverseRecOn with
  | nil => exact List.suffix_rfl
  | append_singleton h w ih =>
    by_cases start : w = .start
    · rw [start, session_start]
      exact List.nil_suffix
    · obtain ⟨pre, eq⟩ := ih
      rw [session_append h (by simpa using start)]
      exact ⟨pre, by rw [← List.append_assoc, eq]⟩

/-- The gate lets a session through only with all its images verified. -/
theorem Gate.through {s : St} {c : Cxt} {h : List Event} (g : Gate s (session h)) (late : Late s)
    (hc : s.cxt = some c) (finish : c.fwUpgradeState.late = true) : Through h c.trialFwdIdx := by
  obtain ⟨pre, raw, hdrs, post, at_⟩ := g c hc (late c hc finish).1
  obtain ⟨k, eq⟩ := session_suffix h
  refine ⟨k ++ pre, raw, hdrs, c.downloadFlag, post, ?_, fun i img hdr flag pos => ?_⟩
  · have := at_.header.prepend k
    rwa [eq] at this
  · obtain ⟨lt, -⟩ := List.getElem?_eq_some_iff.mp hdr
    rw [at_.total] at lt
    exact at_.done i img (Nat.lt_of_lt_of_le lt (late c hc finish).2) hdr flag pos

theorem Gated.calm {h k : List Event} (gated : Gated h) (calm : ∀ w ∈ k, Calm w) :
    Gated (h ++ k) := by
  intro before f op out after eq
  have not : ¬Calm (.op (.info f .status) op out) := id
  rcases List.append_eq_append_iff.mp eq.symm with ⟨more, rfl, tail⟩ | ⟨more, rfl, tail⟩
  · cases more with
    | nil =>
      rw [List.nil_append] at tail
      exact (not (calm _ (tail ▸ List.mem_cons_self ..))).elim
    | cons w more =>
      cases tail
      exact gated before f op out more rfl
  · exact (not (calm _ (tail ▸ List.mem_append_right _ (List.mem_cons_self ..)))).elim

theorem Gated.snoc {h : List Event} (gated : Gated h) {w : Event}
    (last : ∀ f op out, w = .op (.info f .status) op out → Through h f) : Gated (h ++ [w]) := by
  intro before f op out after eq
  rcases List.eq_nil_or_concat after with rfl | ⟨more, v, rfl⟩
  · obtain ⟨rfl, last'⟩ := List.append_inj' eq rfl
    exact last f op out (List.singleton_inj.mp last')
  · rw [List.concat_eq_append, ← List.cons_append, ← List.append_assoc] at eq
    exact gated before f op out more (List.append_inj' eq rfl).1

/-- What is known in every run of moves from a fresh context. -/
structure Safe (s : St) (h : List Event) : Prop where
  gate : Gate s (session h)
  late : Late s
  gated : Gated h

theorem Move.safe {s t : St} {h h' : List Event} (m : Move e retry (s, h) (t, h'))
    (safe : Safe s h) : Safe t h' := by
  obtain ⟨k, rfl, adds⟩ := m.adds
  refine ⟨m.gate safe.late safe.gate, m.late safe.late, ?_⟩
  cases adds with
  | calm calm => exact safe.gated.calm calm
  | start => exact safe.gated.snoc fun f op out h => by cases h
  | images raw hdrs flags => exact safe.gated.snoc fun f op out h => by cases h
  | status op out hc state =>
    apply safe.gated.snoc
    intro f op out h
    cases h
    exact safe.gate.through safe.late hc (by rw [state]; rfl)

theorem Notes.gated {k : List Event} (notes : Notes k) : Gated k := by
  have calm : ∀ w ∈ k, Calm w := by
    intro w hw
    obtain ⟨n, rfl⟩ := notes w hw
    trivial
  have none : Gated [] := by
    intro before f op out after eq
    simp at eq
  exact none.calm calm

theorem Since.gated {s₀ s : St} {l : List Event} (since : Since e retry s₀ s l) : Gated l := by
  cases since with
  | idle none still notes => exact notes.gated
  | @moves s₁ k cxt still notes moves =>
    have start : Safe s₁ (k ++ [.start]) := by
      refine ⟨.first cxt rfl, .of_state cxt (fun h => by cases h), ?_⟩
      exact notes.gated.snoc fun f op out h => by cases h
    exact (invariant_of_step (I := fun c => Safe c.1 c.2) (fun c d safe m => m.safe safe) moves
      start).gated

/-- The status VALID, which `fw_upgrade_session_finalize` writes into the trial FWD, is written
only if, since the last call at offset 0, the header's hash has been found right and every image
to download has been verified, after all of it had been written to its own partition. -/
theorem status_gated {ok : St → Packet → Prop} {s₀ s : St} {l before after : List Event} {f : Nat}
    {op : Op} {out : Outcome} (calls : Calls e ok s₀ s l)
    (written : l = before ++ .op (.info f .status) op out :: after) : Through before f :=
  (calls.since true fun _ _ _ => .inr (.inl rfl)).2.gated before f op out after written

def Event.isStatus (f : Nat) : Event → Bool
  | .op (.info g .status) _ _ => g == f
  | _ => false

theorem plainUpload_through : ∃ before op out after,
    (sessionProcess plainEnv 40 (.of 0 plainUpload) plainDevice).trace =
      before ++ .op (.info 1 .status) op out :: after ∧ Through before 1 := by
  have valid : (sessionProcess plainEnv 40 (.of 0 plainUpload) plainDevice).trace.any
      (Event.isStatus 1) = true := by decide +kernel
  have idle : Calls plainEnv (fun _ _ => True) plainDevice plainDevice [] := .idle rfl
  have run := idle.restart 40 (.of 0 plainUpload) rfl trivial
  obtain ⟨w, mem, status⟩ := List.any_eq_true.mp valid
  obtain ⟨before, after, eq⟩ := List.append_of_mem mem
  cases w with
  | op who op out =>
    cases who with
    | info f info =>
      cases info with
      | status =>
        obtain rfl : f = 1 := by simpa [Event.isStatus] using status
        exact ⟨before, op, out, after, eq, status_gated run eq⟩
      | _ => cases status
    | _ => cases status
  | _ => cases status

end Qapp.Fw
