import Qapp.Lib.Fill
import Qapp.Fw.Stream
import Qapp.Fw.Track

/-!
# Images in NOR flash

Each block of an image is erased before the first byte is written to it. What has been stored
stays there for the rest of the session.
-/

namespace Qapp.Fw
open ByteMem Traced

variable {e : Env} {s₀ s t u : St} {c d : Cxt} {l k : List Event} {i blocks : Nat}
  {client : Client} {data bytes : List UInt8} {op : Op} {out : Outcome} {who : Issuer}

/-! ## The commands for an image -/

/-- The command to the flash that is carried out for image `i`. -/
def Event.imageCmd (i : Nat) : Event → Option Nor.Cmd
  | .op (.image j _ _) (.erase a n) .done => if j = i then some (.erase a n) else none
  | .op (.image j _ _) (.write a bytes) .done => if j = i then some (.program a bytes) else none
  | _ => none

def imageCmds (i : Nat) (l : List Event) : List Nor.Cmd := l.filterMap (Event.imageCmd i)

/-- Neither data nor the partition of image `i`. -/
structure Event.Others (i : Nat) (w : Event) : Prop where
  chunk : w.chunk i = none
  cmd : w.imageCmd i = none
  created : ∀ c, w ≠ .created i c

theorem Event.Others.of_op (other : ∀ c offset, who ≠ .image i c offset) :
    (Event.op who op out).Others i := by
  refine ⟨?_, ?_, by rintro c ⟨⟩⟩
  · cases who with
    | image j c offset =>
      have ne : j ≠ i := fun eq => other c offset (by rw [eq])
      cases op with
      | erase => rfl
      | write | rramWrite => exact if_neg ne
    | _ => rfl
  · cases who with
    | image j c offset =>
      have ne : j ≠ i := fun eq => other c offset (by rw [eq])
      cases op with
      | rramWrite => rfl
      | erase | write =>
        cases out with
        | done => exact if_neg ne
        | failed | rejected => rfl
    | _ => rfl

theorem imageCmds_append (i : Nat) (l k : List Event) :
    imageCmds i (l ++ k) = imageCmds i l ++ imageCmds i k := List.filterMap_append ..

theorem imageCmds_others (others : ∀ w ∈ k, w.Others i) : imageCmds i k = [] :=
  List.filterMap_eq_nil_iff.mpr fun w mem => (others w mem).cmd

/-! ## A partition being filled -/

/-- Since the partition of image `i` was created, `data` has been written to it, and its first
`blocks` blocks have been erased. -/
structure Filling (s : St) (l : List Event) (i : Nat) (client : Client) (data : List UInt8)
    (blocks : Nat) : Prop where
  since : ∃ before after, l = before ++ .created i client :: after ∧
    (∀ c, .created i c ∉ after) ∧
    Nor.Filled client.imgStart blockSize (imageCmds i after) data blocks ∧
    ∃ m, ∀ x, client.imgStart ≤ x → x < client.imgStart + client.imgSize →
      s.flash x = Nor.run m (imageCmds i after) x
  stored : stored i l = some data
  room : blocks * blockSize ≤ client.imgSize

namespace Filling

/-- What others do elsewhere. -/
theorem others (h : Filling s l i client data blocks) (others : ∀ w ∈ k, w.Others i)
    (devices : SameDevices t (replay s k))
    (misses : ∀ who op out, .op who op out ∈ k → op.Misses client) :
    Filling t (l ++ k) i client data blocks := by
  obtain ⟨before, after, rfl, last, filled, m, agree⟩ := h.since
  have cmds : imageCmds i (after ++ k) = imageCmds i after := by
    rw [imageCmds_append, imageCmds_others others, List.append_nil]
  refine ⟨⟨before, after ++ k, by simp, fun c mem => ?_, ?_, m, fun x lo hi => ?_⟩, ?_, h.room⟩
  · obtain mem | mem := List.mem_append.mp mem
    · exact last c mem
    · exact (others _ mem).created c rfl
  · rw [cmds]
    exact filled
  · rw [cmds, ← agree x lo hi, devices.1]
    refine replay_flash (fun who op out mem a n range => ?_) s
    have := misses who op out mem a n range
    omega
  · rw [stored_append_none fun w mem => (others w mem).chunk]
    exact h.stored

theorem quiet (h : Filling s l i client data blocks) (flash : t.flash = s.flash) :
    Filling t l i client data blocks := by
  obtain ⟨before, after, rfl, last, filled, m, agree⟩ := h.since
  refine ⟨⟨before, after, rfl, last, filled, m, fun x lo hi => ?_⟩, h.stored, h.room⟩
  rw [flash]
  exact agree x lo hi

/-- A partition that has just been created. -/
theorem created (s : St) (client : Client) (empty : Fw.stored i l = some []) :
    Filling s (l ++ [.created i client]) i client [] 0 where
  since := ⟨l, [], rfl, fun _ => List.not_mem_nil, .empty, s.flash, fun _ _ _ => rfl⟩
  stored := by
    rw [stored_append_none fun w mem => by rw [List.mem_singleton.mp mem]; rfl]
    exact empty
  room := by
    rw [Nat.zero_mul]
    exact Nat.zero_le _

/-- One more command for the image. -/
theorem issue (h : Filling s l i client data blocks) {w : Event} {cmd : Nor.Cmd}
    {data' : List UInt8} {blocks' : Nat} (is : w.imageCmd i = some cmd)
    (ran : ∀ x, t.flash x = cmd.run s.flash x)
    (filled : ∀ cmds, Nor.Filled client.imgStart blockSize cmds data blocks →
      Nor.Filled client.imgStart blockSize (cmds ++ [cmd]) data' blocks')
    (stored : Fw.stored i (l ++ [w]) = some data') (room : blocks' * blockSize ≤ client.imgSize) :
    Filling t (l ++ [w]) i client data' blocks' := by
  obtain ⟨before, after, rfl, last, before', m, agree⟩ := h.since
  have cmds : imageCmds i (after ++ [w]) = imageCmds i after ++ [cmd] := by
    rw [imageCmds_append]
    exact congrArg _ (List.filterMap_cons_some is)
  refine ⟨⟨before, after ++ [w], by simp, fun c mem => ?_, ?_, m, fun x lo hi => ?_⟩, stored, room⟩
  · obtain mem | mem := List.mem_append.mp mem
    · exact last c mem
    · rw [← List.mem_singleton.mp mem] at is
      cases is
  · rw [cmds]
    exact filled _ before'
  · rw [cmds, Nor.run_snoc, ran]
    exact Nor.Cmd.run_congr (agree x lo hi) cmd

/-- The next blocks are erased. -/
theorem erase (h : Filling s l i client data blocks) {offset n : Nat} {client' : Client}
    (ran : Ran s (.erase (client.imgStart + blocks * blockSize) (n * blockSize)) .done t)
    (room : (blocks + n) * blockSize ≤ client.imgSize) :
    Filling t (l ++ [.op (.image i client' offset)
      (.erase (client.imgStart + blocks * blockSize) (n * blockSize)) .done]) i client data
      (blocks + n) := by
  refine h.issue (if_pos rfl) (fun x => congrFun ran.same.1 x) (fun _ filled => filled.erase n) ?_
    room
  rw [stored_append_none fun w mem => by rw [List.mem_singleton.mp mem]; rfl]
  exact h.stored

/-- The next bytes are written. -/
theorem write (h : Filling s l i client data blocks) (client' : Client)
    (ran : Ran s (.write (client.imgStart + data.length) bytes) .done t)
    (fits : data.length + bytes.length ≤ blocks * blockSize) :
    Filling t (l ++ [.op (.image i client' data.length)
      (.write (client.imgStart + data.length) bytes) .done]) i client (data ++ bytes) blocks :=
  h.issue (if_pos rfl) (fun x => congrFun ran.same.1 x) (fun _ filled => filled.program fits)
    (stored_snoc h.stored (if_pos rfl)) h.room

/-- The data is in the flash. -/
theorem load_eq (h : Filling s l i client data blocks) :
    load s.flash client.imgStart data.length = data := by
  obtain ⟨before, after, -, -, filled, m, agree⟩ := h.since
  have fits := filled.fits
  have room := h.room
  rw [← filled.stored m, length_load]
  apply load_congr
  intro x lt
  exact agree _ (by omega) (by omega)

end Filling

/-! ## Partitions apart -/

/-- The partition is behind the descriptors, and apart from the partitions of the running FWD
that a session changes. -/
structure Clear (s₀ : St) (client : Client) : Prop where
  behind : maxFwd * blockSize ≤ client.imgStart
  apart : ∀ id p, id = fs2ImgId ∨ id = ramdumpImgId → Lookup s₀.flash (activeFwd s₀.rram) id p →
    p.imgStart + p.imgSize ≤ client.imgStart ∨ client.imgStart + client.imgSize ≤ p.imgStart

/-- The selected region is apart from the partitions of the running FWD that a session changes. -/
def Separate (s₀ : St) (l : List Event) : Prop :=
  ∀ f start size, .selected f start size ∈ l → ∀ id p, id = fs2ImgId ∨ id = ramdumpImgId →
    Lookup s₀.flash (activeFwd s₀.rram) id p →
    p.imgStart + p.imgSize ≤ start ∨ start + size ≤ p.imgStart

/-- What is not done for an image misses the images. -/
theorem Does.misses (does : Does e s c who op) (track : Track s₀ s l) (hc : s.cxt = some c)
    (proper : Proper e s₀ l) (clear : Clear s₀ client)
    (other : ∀ i p offset, who ≠ .image i p offset) : op.Misses client := by
  have behind := clear.behind
  have block {f : Nat} (lt : f < maxFwd) (inside : op.InFlash (fwdAddr f) blockSize) :
      op.Misses client := by
    refine inside.misses (.inl ?_)
    unfold fwdAddr maxFwd at *
    unfold blockSize at *
    omega
  have field (info : FwdInfo) (value : Nat) : (Op.write (fwdAddr c.trialFwdIdx + info.offset)
      (leBytes info.size value)).InFlash (fwdAddr c.trialFwdIdx) blockSize := by
    have := info.in_block
    refine ⟨_, _, rfl, by omega, ?_⟩
    rw [length_leBytes]
    unfold blockSize
    omega
  cases does with
  | erase state lt => exact block lt ⟨_, _, rfl, Nat.le_refl _, Nat.le_refl _⟩
  | field state lt header => exact block lt (field _ _)
  | entry state fwd lt slot =>
    refine block lt ⟨_, _, rfl, ?_, ?_⟩
    · unfold entryAddr
      omega
    · rw [length_entryBytes]
      unfold entryAddr
      unfold maxImages at slot
      unfold blockSize
      omega
  | part state which found h =>
    obtain ⟨found, inside⟩ := h.listed track hc proper state which found
    exact inside.misses (clear.apart _ _ which found)
  | image | copy => exact absurd rfl (other _ _ _)
  | status state lt => exact block lt (field .status statusValid)
  | fde state => exact Op.misses_of_rram rfl

/-- What is done for an image misses those before it. -/
theorem Does.misses_behind {p : Client} {offset : Nat} (does : Does e s c (.image i p offset) op)
    (track : Track s₀ s l) (hc : s.cxt = some c) (proper : Proper e s₀ l) (late : Late s)
    (clear : Clear s₀ client) (behind : client.imgStart + client.imgSize ≤ c.trialMemStart) :
    op.Misses client := by
  obtain ⟨r, sits, fitting, inside⟩ := does.sits track hc proper late
  unfold Op.InClient at inside
  by_cases sbl : r.imageId = sblImgId
  · rw [if_pos (sits.id.trans sbl)] at inside
    obtain ⟨a, bs, rfl, -⟩ := inside
    exact Op.misses_of_rram rfl
  · rw [if_neg (by rwa [sits.id])] at inside
    by_cases fs1 : r.imageId = fs1ImgId
    · obtain ⟨fs2, found, start, size, -⟩ := sits.fs1 fs1
      rw [start, size] at inside
      exact inside.misses (clear.apart _ _ (.inl rfl) found)
    · obtain ⟨start, -⟩ := sits.region fs1 sbl
      exact inside.misses (.inr (by omega))

/-- The image an operation is for: the current one, or the one that is copied. -/
theorem Does.index {p : Client} {offset : Nat} (does : Does e s c (.image i p offset) op) :
    i = c.imageIndex ∧ c.imageIndex < c.totalImages ∨
      i = c.duplicateIndex ∧ c.fwUpgradeState = .duplicateImages ∧ s.partition = some p := by
  generalize hw : Issuer.image i p offset = who at does
  cases does with
  | image current place h =>
    cases hw
    exact .inl ⟨rfl, current.lt⟩
  | copy state part imageHdr hdr h =>
    cases hw
    exact .inr ⟨rfl, state, part⟩
  | _ => cases hw

/-! ## What a move adds -/

/-- A session that has its header goes on. -/
structure Onward (c d : Cxt) : Prop extends Fixed c d where
  first : d.isFirst = false
  index : c.imageIndex ≤ d.imageIndex
  start : c.trialMemStart ≤ d.trialMemStart

theorem Onward.of (first : d.isFirst = false) (fixed : Fixed c d)
    (index : d.imageIndex = c.imageIndex) (start : d.trialMemStart = c.trialMemStart) :
    Onward c d := ⟨fixed, first, Nat.le_of_eq index.symm, Nat.le_of_eq start.symm⟩

theorem Onward.refl (first : c.isFirst = false) : Onward c c := .of first (.refl c) rfl rfl

/-- The next image begins behind the current one. -/
theorem Current.advances {img : ImageHdr} (current : Current s c img) (track : Track s₀ s l)
    (hc : s.cxt = some c) (proper : Proper e s₀ l) : c.trialMemStart ≤ c.advanced img := by
  obtain ⟨-, start, size, raw, hdrs, a, selected, loaded⟩ := (track.cxt c hc).loaded current.first
  rw [loaded.advanced proper selected current]
  exact Nat.le_add_right _ _

theorem Move.onward {h h' : List Event} (m : Move e false (s, h) (t, h')) (proper : Proper e s₀ h)
    (track : Track s₀ s h) (hc : s.cxt = some c) (first : c.isFirst = false) :
    ∀ d, t.cxt = some d → Onward c d := by
  intro d hd
  have same (cxt : t.cxt = s.cxt) : Onward c d := by
    cases hc.symm.trans (cxt.symm.trans hd)
    exact .refl first
  have before {state : FwState} (is : c.fwUpgradeState = state) (no : state.erased = false) :
      Onward c d := by
    have erased := ((track.cxt c hc).loaded first).1
    rw [is, no] at erased
    cases erased
  have not {P : Prop} (yes : c.isFirst = true) : P := by cases first.symm.trans yes
  cases m with
  | quiet q => exact same q.cxt
  | note | reset | headerHash => exact same rfl
  | close => cases hd
  | attach hs k hc' first'
  | early imageHdr format count total sblStart sblSize sblIdx flags digest hc' first' =>
    cases hc.symm.trans hc'
    exact not first'
  | accept hc' erased accepts =>
    cases hc.symm.trans hc'
    exact not accepts.first
  | detach hs hc' | tune bufLen bufOffset hidden config state hc' edge | begin hc' current len
  | lost bufOffset hc' state loose | giveUp hs hc' state events q | dupBegin hc' state again
  | dupPlace hs hc' state loose imageHdr hdr flag special fwd id start size entered handle
  | dupSkip hc' state loose imageHdr hdr kept =>
    cases hc.symm.trans hc'
    cases hd
    exact .of first ⟨rfl, rfl, rfl⟩ rfl rfl
  | aim fwdIdx start size hc' state | select hc' state selected q other =>
    cases hc.symm.trans hc'
    exact before state rfl
  | erased hc' state lt possible ran =>
    cases hc.symm.trans hc'
    exact before state rfl
  | notErased hc' state lt bad possible ran | field hc' state first' lt header possible ran
  | validate hc' state lt possible ran | fde hc' state possible ran => exact same ran.cxt
  | bulk hc' state which found touches | dupWork hc' state part imageHdr hdr touches =>
    exact same touches.cxt
  | hide hc' state first' fwd hidden entered | noEntry hc' state fwd bad entered =>
    exact same entered.touches.cxt
  | skipTo index hc' state loose le skipped =>
    cases hc.symm.trans hc'
    cases hd
    exact ⟨⟨rfl, rfl, rfl⟩, first, le, Nat.le_refl _⟩
  | emptyFs1 hs hc' state loose first' empty fwd id entered =>
    cases hc.symm.trans hc'
    cases hd
    exact ⟨⟨rfl, rfl, rfl⟩, first, Nat.le_succ _, Nat.le_refl _⟩
  | place hs hc' current count len placed entered first' handle reset
  | chunk bufOffset hc' current part ne fit ahead write next
  | spoil bufOffset hc' current part fit ahead write =>
    cases hc.symm.trans hc'
    cases hd
    exact .of first ⟨rfl, rfl, rfl⟩ rfl rfl
  | complete hs hc' current part pos full notes q hash
  | skipEmpty hs hc' current empty len format =>
    cases hc.symm.trans hc'
    cases hd
    exact ⟨⟨rfl, rfl, rfl⟩, first, Nat.le_succ _, current.advances track hc proper⟩
  | dupNext hs hc' state held imageHdr hdr flag special =>
    cases hc.symm.trans hc'
    cases hd
    obtain ⟨-, start, size, raw, hdrs, a, selected, loaded⟩ := (track.cxt c hc).loaded first
    refine ⟨⟨rfl, rfl, rfl⟩, first, Nat.le_refl _, ?_⟩
    rw [loaded.copied proper selected imageHdr hdr flag special]
    exact Nat.le_add_right _ _

/-- The events that say something of the images, among those that a move adds. -/
inductive Marks (s t : St) (k : List Event) : Event → Prop
  | images {raw hdrs : List ImageHdr} {flags : Nat → Bool} {c : Cxt} (hc : s.cxt = some c)
      (first : c.isFirst = true) (next : ∀ d, t.cxt = some d → d.isFirst = false)
      (loose : t.partition = none) : Marks s t k (.images raw hdrs flags)
  | created {c : Cxt} {client : Client} (hc : s.cxt = some c) (i : Nat)
      (which : i = c.imageIndex ∨ c.downloadFlag i = false) : Marks s t k (.created i client)
  | hashed {c : Cxt} {client : Client} {img : ImageHdr} (hc : s.cxt = some c)
      (current : Current s c img) (part : s.partition = some client) (pos : 0 < c.imageWrtLength)
      (full : c.imageWrtLength ≤ c.imageWrtCount)
      (next : ∀ d, t.cxt = some d →
        d.imageIndex = c.imageIndex + 1 ∧ d.trialMemStart = c.advanced img)
      (silent : ∀ w ∈ k, (∃ n, w = .note n) ∨ ∃ i bytes, w = .hashed i bytes true) :
      Marks s t k (.hashed (some c.imageIndex)
        (c.digest.update (hashPadding c.format img)).bytes true)
  | other {w : Event} (images : ∀ raw hdrs flags, w ≠ .images raw hdrs flags)
      (created : ∀ i client, w ≠ .created i client)
      (hashed : ∀ i bytes, w ≠ .hashed (some i) bytes true) : Marks s t k w

theorem Marks.device (who : Issuer) (op : Op) (out : Outcome) : Marks s t k (.op who op out) :=
  .other (by rintro _ _ _ ⟨⟩) (by rintro _ _ ⟨⟩) (by rintro _ _ ⟨⟩)

theorem Marks.note (n : Note) : Marks s t k (.note n) :=
  .other (by rintro _ _ _ ⟨⟩) (by rintro _ _ ⟨⟩) (by rintro _ _ ⟨⟩)

theorem marks_nil : ∀ w ∈ [], Marks s t k w := fun _ mem => absurd mem List.not_mem_nil

theorem marks_one {w : Event} (marks : Marks s t k w) : ∀ v ∈ [w], Marks s t k v :=
  fun _ mem => List.mem_singleton.mp mem ▸ marks

theorem marks_append {a b : List Event} (ha : ∀ w ∈ a, Marks s t k w)
    (hb : ∀ w ∈ b, Marks s t k w) : ∀ w ∈ a ++ b, Marks s t k w :=
  fun w mem => (List.mem_append.mp mem).elim (ha w) (hb w)

theorem Touches.marks {P : Issuer → Op → Outcome → Prop} {a b : St} (h : Touches e P a l b) :
    ∀ w ∈ l, Marks s t k w := by
  intro w mem
  obtain ⟨n, rfl⟩ | ⟨who, op, out, rfl, -⟩ := h.events w mem
  · exact .note n
  · exact .device who op out

/-- An event with the note of a partition that is created. -/
theorem marks_created {client : Client} {v : Event} (hv : Marks s t k v) (hc : s.cxt = some c)
    {i : Nat} (which : i = c.imageIndex ∨ c.downloadFlag i = false) :
    ∀ w ∈ [v, .created i client], Marks s t k w :=
  marks_append (marks_one hv) (marks_one (.created hc i which))

theorem Move.marks {h h' : List Event} (m : Move e false (s, h) (t, h')) :
    ∃ k, h' = h ++ k ∧ ∀ w ∈ k, Marks s t k w := by
  have none : ∃ k, h = h ++ k ∧ ∀ w ∈ k, Marks s t k w := ⟨[], (List.append_nil h).symm, marks_nil⟩
  cases m with
  | quiet | close | attach | detach | tune | aim | early | skipTo | begin | lost | skipEmpty
  | dupBegin | dupNext | dupSkip => exact none
  | note n => exact ⟨_, rfl, marks_one (.note n)⟩
  | reset | select | headerHash =>
    exact ⟨_, rfl, marks_one (.other (by rintro _ _ _ ⟨⟩) (by rintro _ _ ⟨⟩) (by rintro _ _ ⟨⟩))⟩
  | erased | notErased | hide | field | noEntry | validate | fde =>
    exact ⟨_, rfl, marks_one (.device _ _ _)⟩
  | bulk hc state which found touches => exact ⟨_, rfl, touches.marks⟩
  | accept hc erased accepts =>
    refine ⟨_, rfl, marks_one (.images hc accepts.first (fun d hd => ?_) ?_)⟩
    · cases hd
      rfl
    · exact partition_free rfl (by exact accepts.loose)
  | emptyFs1 hs hc state loose first empty fwd id entered =>
    exact ⟨_, rfl, marks_created (.device _ _ _) hc (.inl rfl)⟩
  | place hs hc current count len placed entered first handle reset =>
    refine ⟨_, List.append_assoc .., marks_append (marks_created (.device _ _ _) hc (.inl rfl)) ?_⟩
    split at first
    · rw [first.1]
      exact marks_nil
    · exact first.touches.marks
  | chunk bufOffset hc current part ne fit ahead write next =>
    exact ⟨_, by simp only [List.append_assoc], (chunk_touches ahead write next).marks⟩
  | spoil bufOffset hc current part fit ahead write =>
    exact ⟨_, List.append_assoc .., (spoil_touches ahead write).marks⟩
  | complete hs hc current part pos full notes q hash =>
    refine ⟨_, List.append_assoc .., marks_append (fun w mem => ?_)
      (marks_one (.hashed hc current part pos full (fun d hd => ?_) fun w mem => ?_))⟩
    · obtain ⟨n, rfl⟩ := notes w mem
      exact .note n
    · cases hd
      exact ⟨rfl, rfl⟩
    · obtain mem | mem := List.mem_append.mp mem
      · exact .inl (notes w mem)
      · exact .inr ⟨_, _, List.mem_singleton.mp mem⟩
  | giveUp hs hc state events q =>
    refine ⟨_, rfl, fun w mem => ?_⟩
    obtain ⟨n, rfl⟩ | ⟨i, b, rfl⟩ := events w mem
    · exact .note n
    · exact .other (by rintro _ _ _ ⟨⟩) (by rintro _ _ ⟨⟩) (by rintro _ _ ⟨⟩)
  | dupPlace hs hc state loose imageHdr hdr flag special fwd id start size entered handle =>
    exact ⟨_, rfl, marks_created (.device _ _ _) hc (.inr flag)⟩
  | dupWork hc state part imageHdr hdr touches => exact ⟨_, rfl, touches.marks⟩

/-! ## The current image -/

/-- The flash does what it is told, and there is memory for everything. -/
structure Acknowledged (l : List Event) : Prop where
  ops : ∀ who op out, .op who op out ∈ l → out = .done
  allocs : ∀ b, .note (.denied b) ∉ l

theorem Acknowledged.mono {k l : List Event} (h : Acknowledged l) (sub : k ⊆ l) : Acknowledged k :=
  ⟨fun who op out mem => h.ops who op out (sub mem), fun b mem => h.allocs b (sub mem)⟩

/-- A partition in the selected region. -/
structure Regular (client : Client) : Prop where
  id : client.imgId ≠ sblImgId
  aligned : client.imgStart % blockSize = 0
  small : client.imgStart + client.imgSize < 2 ^ 32

theorem Regular.eraseOp_eq (h : Regular client) {offset size : Nat}
    (fits : EraseFits client offset size) (inside : offset + size ≤ client.imgSize) :
    client.eraseOp offset size = .erase (client.imgStart + offset) size := by
  have range := eraseOp_range fits h.aligned inside h.small
  cases op : client.eraseOp offset size with
  | erase a n =>
    rw [op] at range
    cases range
    rfl
  | write | rramWrite => cases op

theorem Regular.writeOp_eq (h : Regular client) {offset : Nat} (inside : offset ≤ client.imgSize) :
    client.writeOp offset bytes = .write (client.imgStart + offset) bytes := by
  have small := h.small
  rw [Client.writeOp, if_neg h.id, Nat.mod_eq_of_lt (by omega)]

/-- The next `n` blocks are erased, unless the flash refuses. -/
theorem Filling.eraseRun (h : Filling s l i client data blocks) (regular : Regular client)
    {n : Nat} {ok : Bool} (pos : n ≠ 0) (room : (blocks + n) * blockSize ≤ client.imgSize)
    (run : EraseRun e (.image i client (blocks * blockSize)) client (blocks * blockSize)
      (n * blockSize) s k t ok) (acked : Acknowledged k) :
    Filling t (l ++ k) i client data (blocks + n) ∧ ok = true := by
  have small := regular.small
  have inside : blocks * blockSize + n * blockSize ≤ client.imgSize := by
    rw [← Nat.add_mul]
    exact room
  have fits : EraseFits client (blocks * blockSize) (n * blockSize) := by
    refine ⟨regular.id, ?_, Nat.mul_mod_left .., Nat.mul_mod_left .., ?_⟩
    · exact Nat.mul_ne_zero pos (by decide)
    · rw [Nat.mod_eq_of_lt (by omega)]
      exact inside
  cases run with
  | skipped id => exact absurd id regular.id
  | done _ _ ran =>
    rw [regular.eraseOp_eq fits inside] at ran ⊢
    exact ⟨h.erase ran room, rfl⟩
  | failed bad => exact absurd (acked.ops _ _ _ (.head _)) bad
  | refused no => exact absurd fits no

theorem Filling.note (h : Filling s l i client data blocks) (n : Note) :
    Filling s (l ++ [.note n]) i client data blocks := by
  refine h.others (fun w mem => ?_) ⟨rfl, rfl⟩ fun who op out mem => ?_
  · rw [List.mem_singleton.mp mem]
    exact ⟨rfl, rfl, by rintro _ ⟨⟩⟩
  · cases List.mem_singleton.mp mem

/-- The next bytes are written, unless the flash refuses. -/
theorem Filling.writeRun (h : Filling s l i client data blocks) (regular : Regular client)
    {ok : Bool} (pos : bytes ≠ []) (fits : data.length + bytes.length ≤ blocks * blockSize)
    (run : WriteRun e (.image i client data.length) client data.length bytes s k t ok)
    (acked : Acknowledged k) : Filling t (l ++ k) i client (data ++ bytes) blocks ∧ ok = true := by
  have small := regular.small
  have room := h.room
  have inside : WriteFits client data.length bytes.length := by
    refine ⟨fun zero => pos (List.length_eq_zero_iff.mp zero), ?_⟩
    rw [Nat.mod_eq_of_lt (by omega), Nat.mod_eq_of_lt small]
    omega
  cases run with
  | done _ around quiet _ ran =>
    rw [regular.writeOp_eq (by omega)] at ran around
    obtain rfl | rfl := around
    · exact ⟨(h.quiet quiet.flash).write client ran fits, rfl⟩
    · have noted := (h.note (.alloc .aligned)).quiet quiet.flash
      have written := (noted.write client ran fits).note (.free .aligned)
      rw [List.append_assoc, List.append_assoc] at written
      exact ⟨written, rfl⟩
  | failed bad _ around =>
    obtain rfl | rfl := around
    · exact absurd (acked.ops _ _ _ (.head _)) bad
    · exact absurd (acked.ops _ _ _ (.tail _ (.head _))) bad
  | refused no => exact absurd inside no
  | denied => exact absurd (.head _) (acked.allocs .aligned)

/-- The blocks of an image that are erased when `count` of its `length` bytes are there. -/
def erasedBlocks (count length : Nat) : Nat :=
  if count < length then count / blockSize + 1 else max 1 (blockCount length)

/-- The blocks that are erased before `n` more bytes are written. -/
def aheadBlocks (count n : Nat) : Nat :=
  if Crosses count n then blockCount (count + n) else count / blockSize + 1

theorem le_aheadBlocks (count : Nat) {n : Nat} (pos : 0 < n) :
    count + n ≤ aheadBlocks count n * blockSize := by
  unfold aheadBlocks
  by_cases crosses : Crosses count n
  · rw [if_pos crosses]
    unfold blockCount blockSize
    omega
  · rw [if_neg crosses]
    unfold Crosses blockSize at crosses
    unfold blockSize
    omega

theorem lt_blockCount {count n : Nat} (pos : 0 < n) (crosses : Crosses count n) :
    count / blockSize + 1 < blockCount (count + n) := by
  unfold Crosses at crosses
  unfold blockCount
  unfold blockSize at *
  omega

/-- After the bytes, the next block is erased if they end with a block. -/
theorem erasedBlocks_add {count n length : Nat} (pos : 0 < n) (fit : count + n ≤ length) :
    erasedBlocks (count + n) length =
      if (count + n) % blockSize = 0 ∧ count + n < length then aheadBlocks count n + 1
      else aheadBlocks count n := by
  unfold erasedBlocks aheadBlocks
  by_cases crosses : Crosses count n
  · rw [if_pos crosses]
    unfold Crosses at crosses
    unfold blockCount
    unfold blockSize at *
    split <;> split <;> omega
  · rw [if_neg crosses]
    unfold Crosses at crosses
    unfold blockCount
    unfold blockSize at *
    split <;> split <;> omega

theorem erasedBlocks_le (count length : Nat) :
    erasedBlocks count length ≤ max 1 (blockCount length) := by
  unfold erasedBlocks blockCount blockSize
  split <;> omega

theorem blocks_fit {n length size : Nat} (room : max 1 (blockCount length) * blockSize ≤ size)
    (le : n ≤ max 1 (blockCount length)) : n * blockSize ≤ size :=
  Nat.le_trans (Nat.mul_le_mul_right blockSize le) room

theorem aheadBlocks_le {count n length : Nat} (pos : 0 < n) (fit : count + n ≤ length) :
    aheadBlocks count n ≤ max 1 (blockCount length) := by
  have le := erasedBlocks_le (count + n) length
  rw [erasedBlocks_add pos fit] at le
  split at le <;> omega

/-- The blocks that a piece of the image's data needs are erased. -/
theorem Filling.ahead {a : St} {la : List Event} {count length n : Nat} {ok : Bool}
    (h : Filling s l i client data (erasedBlocks count length)) (regular : Regular client)
    (pos : 0 < n) (fit : count + n ≤ length)
    (room : max 1 (blockCount length) * blockSize ≤ client.imgSize)
    (ahead : if Crosses count n then
        EraseRun e (.image i client (aheadOffset count)) client (aheadOffset count)
          (aheadSize count n) s la a ok
      else la = [] ∧ a = s ∧ ok = true) (acked : Acknowledged la) :
    Filling a (l ++ la) i client data (aheadBlocks count n) ∧ ok = true := by
  have now : erasedBlocks count length = count / blockSize + 1 := if_pos (by omega)
  rw [now] at h
  have le := aheadBlocks_le pos fit
  by_cases crosses : Crosses count n
  · have more := lt_blockCount pos crosses
    rw [aheadBlocks, if_pos crosses] at le ⊢
    rw [if_pos crosses] at ahead
    have sum : count / blockSize + 1 + (blockCount (count + n) - (count / blockSize + 1)) =
        blockCount (count + n) := by omega
    have run := h.eraseRun regular (by omega) (by rw [sum]; exact blocks_fit room le) ahead acked
    rw [sum] at run
    exact run
  · rw [if_neg crosses] at ahead
    obtain ⟨rfl, rfl, rfl⟩ := ahead
    rw [aheadBlocks, if_neg crosses, List.append_nil]
    exact ⟨h, rfl⟩

/-- A piece of the image's data. -/
theorem Filling.chunk {a b n : St} {la lb ln : List Event} {count length : Nat} {ready : Bool}
    (h : Filling s l i client data (erasedBlocks count length)) (regular : Regular client)
    (counted : data.length = count) (ne : bytes ≠ []) (fit : count + bytes.length ≤ length)
    (room : max 1 (blockCount length) * blockSize ≤ client.imgSize)
    (ahead : if Crosses count bytes.length then
        EraseRun e (.image i client (aheadOffset count)) client (aheadOffset count)
          (aheadSize count bytes.length) s la a true
      else la = [] ∧ a = s)
    (write : WriteRun e (.image i client count) client count bytes a lb b true)
    (next : if (count + bytes.length) % blockSize = 0 ∧ count + bytes.length < length then
        EraseRun e (.image i client (count + bytes.length)) client (count + bytes.length) blockSize
          b ln n ready
      else ln = [] ∧ n = b) (acked : Acknowledged (la ++ lb ++ ln)) :
    Filling n (l ++ la ++ lb ++ ln) i client (data ++ bytes)
      (erasedBlocks (count + bytes.length) length) := by
  have pos : 0 < bytes.length := List.length_pos_iff.mpr ne
  have done : if Crosses count bytes.length then
        EraseRun e (.image i client (aheadOffset count)) client (aheadOffset count)
          (aheadSize count bytes.length) s la a true
      else la = [] ∧ a = s ∧ true = true := by
    by_cases crosses : Crosses count bytes.length
    · rw [if_pos crosses] at ahead ⊢
      exact ahead
    · rw [if_neg crosses] at ahead ⊢
      exact ⟨ahead.1, ahead.2, rfl⟩
  obtain ⟨erased, -⟩ := h.ahead regular pos fit room done
    (acked.mono fun _ mem => List.mem_append_left _ (List.mem_append_left _ mem))
  rw [← counted] at write
  have fits := le_aheadBlocks count pos
  obtain ⟨written, -⟩ := erased.writeRun regular ne (by omega) write
    (acked.mono fun _ mem => List.mem_append_left _ (List.mem_append_right _ mem))
  have after := erasedBlocks_add pos fit
  split at next
  · rename_i edge
    rw [if_pos edge] at after
    have at_ : count + bytes.length = aheadBlocks count bytes.length * blockSize := by
      have := edge.1
      unfold aheadBlocks
      by_cases crosses : Crosses count bytes.length
      · rw [if_pos crosses]
        unfold blockCount
        unfold blockSize at *
        omega
      · rw [if_neg crosses]
        unfold Crosses at crosses
        unfold blockSize at *
        omega
    have le := erasedBlocks_le (count + bytes.length) length
    rw [after] at le ⊢
    have run : EraseRun e (.image i client (aheadBlocks count bytes.length * blockSize)) client
        (aheadBlocks count bytes.length * blockSize) (1 * blockSize) b ln n ready := by
      rw [Nat.one_mul, ← at_]
      exact next
    exact (written.eraseRun regular one_ne_zero (blocks_fit room le) run
      (acked.mono fun _ mem => List.mem_append_right _ mem)).1
  · rename_i within
    rw [if_neg within] at after
    obtain ⟨rfl, rfl⟩ := next
    rw [after, List.append_nil]
    exact written

end Qapp.Fw
