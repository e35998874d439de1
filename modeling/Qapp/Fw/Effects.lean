import Qapp.Fw.Gate

/-!
# What a move does to the devices
-/

namespace Qapp.Fw
open ByteMem Traced
open Relation (ReflTransGen)

variable {e : Env} {retry : Bool}

/-- An access for the `length` bytes of an image. -/
inductive ImageOp (client : Client) (length : Nat) : Nat → Op → Prop
  | erase {offset size : Nat} (fits : EraseFits client offset size)
      (inside : offset + size ≤ max blockSize (blockCount length * blockSize)) :
      ImageOp client length offset (client.eraseOp offset size)
  | write {offset : Nat} {bytes : List UInt8} (fits : WriteFits client offset bytes.length)
      (inside : offset + bytes.length ≤ length) :
      ImageOp client length offset (client.writeOp offset bytes)

/-- The image's partition is about to be created. -/
structure Places (e : Env) (s : St) (c : Cxt) (img : ImageHdr) (client : Client) : Prop where
  length : c.imageWrtLength = img.imageLength
  placed : Placed e s c img client
  aligned : Placeable client.imgId client.imgStart client.imgSize

/-- The operations of a move from `s`. -/
inductive Does (e : Env) (s : St) (c : Cxt) : Issuer → Op → Prop
  | erase (state : c.fwUpgradeState = .eraseFwd) (lt : c.trialFwdIdx < maxFwd) :
      Does e s c (.fwd c.trialFwdIdx) (.erase (fwdAddr c.trialFwdIdx) blockSize)
  | field {info : FwdInfo} {value : Nat} (state : c.fwUpgradeState.erased = true)
      (lt : c.trialFwdIdx < maxFwd) (header : headerField info) :
      Does e s c (.info c.trialFwdIdx info)
        (.write (fwdAddr c.trialFwdIdx + info.offset) (leBytes info.size value))
  | entry {client : Client} (state : c.fwUpgradeState.erased = true)
      (fwd : client.fwdIdx = c.trialFwdIdx) (lt : client.fwdIdx < maxFwd)
      (slot : client.imgIdx < maxImages) :
      Does e s c (.entry client.fwdIdx client.imgIdx) client.entryOp
  | part {id : Nat} {client : Client} {offset : Nat} {op : Op}
      (state : c.fwUpgradeState.bulk = true) (which : id = fs2ImgId ∨ id = ramdumpImgId)
      (found : Lookup s.flash (activeFwd s.rram) id client) (h : PartOp client offset op) :
      Does e s c (.part client offset) op
  | image {img : ImageHdr} {client : Client} {offset : Nat} {op : Op} (current : Current s c img)
      (place : s.partition = some client ∨ Places e s c img client)
      (h : ImageOp client c.imageWrtLength offset op) :
      Does e s c (.image c.imageIndex client offset) op
  | copy {hdrs : List ImageHdr} {img : ImageHdr} {client : Client} {offset : Nat} {op : Op}
      (state : c.fwUpgradeState = .duplicateImages) (part : s.partition = some client)
      (imageHdr : s.imageHdr = some hdrs) (hdr : hdrs[c.duplicateIndex]? = some img)
      (h : CopyOp client img.diskSize offset op) :
      Does e s c (.image c.duplicateIndex client offset) op
  | status (state : c.fwUpgradeState = .finish) (lt : c.trialFwdIdx < maxFwd) :
      Does e s c (.info c.trialFwdIdx .status) (.write (fwdAddr c.trialFwdIdx +
        FwdInfo.offset .status) (leBytes (FwdInfo.size .status) statusValid))
  | fde {i : Nat} {bytes : List UInt8} (state : c.fwUpgradeState = .finish) :
      Does e s c (.fde i) (.rramWrite (fdeAddr i) bytes)

/-- From `s`, the events `k` have led to the devices of `t`. -/
structure Effects (e : Env) (s : St) (k : List Event) (t : St) : Prop where
  devices : SameDevices t (replay s k)
  does : ∀ w o r, .op w o r ∈ k → ∃ c, s.cxt = some c ∧ Does e s c w o
  faults : t.opFaults <:+ s.opFaults
  failed : ∀ w o left, .op w o (.failed left) ∈ k → s.opFaults ≠ []

theorem Touches.failed {P : Issuer → Op → Outcome → Prop} {s t : St} {l : List Event}
    (h : Touches e P s l t) {w : Issuer} {o : Op} {left : Mem}
    (mem : .op w o (.failed left) ∈ l) : s.opFaults ≠ [] := by
  induction h with
  | quiet q => cases mem
  | note s n => simp at mem
  | op allowed possible ran =>
    cases List.mem_singleton.mp mem
    exact possible.fault left rfl
  | trans first _ ih ih' =>
    rcases List.mem_append.mp mem with mem | mem
    · exact ih mem
    · intro none
      have := first.opFaults
      rw [none, List.suffix_nil] at this
      exact ih' mem this

section Effects
variable {s t u : St} {c : Cxt} {k : List Event}

theorem Touches.effects {P : Issuer → Op → Outcome → Prop} (h : Touches e P s k u)
    (hc : s.cxt = some c) (imp : ∀ w o r, P w o r → Does e s c w o)
    (flash : t.flash = u.flash) (rram : t.rram = u.rram)
    (opFaults : t.opFaults = u.opFaults) : Effects e s k t where
  devices := ⟨flash.trans h.devices.1, rram.trans h.devices.2⟩
  does := by
    intro w o r mem
    rcases h.events _ mem with ⟨n, note⟩ | ⟨w', o', r', eq, allowed⟩
    · cases note
    · cases eq
      exact ⟨c, hc, imp _ _ _ allowed⟩
  faults := opFaults ▸ h.opFaults
  failed := fun _ _ _ mem => h.failed mem

theorem replay_silent (s : St) {k : List Event} (silent : ∀ w o r, .op w o r ∉ k) :
    replay s k = s := by
  induction k with
  | nil => rfl
  | cons v k ih =>
    have rest := ih fun w o r mem => silent w o r (List.mem_cons_of_mem _ mem)
    cases v with
    | op w o r => exact absurd (List.mem_cons_self ..) (silent w o r)
    | _ => exact rest

/-- Nothing is done to the devices. -/
theorem Effects.silent (flash : t.flash = s.flash) (rram : t.rram = s.rram)
    (opFaults : t.opFaults <:+ s.opFaults) (silent : ∀ w o r, .op w o r ∉ k) :
    Effects e s k t where
  devices := by
    rw [replay_silent s silent]
    exact ⟨flash, rram⟩
  does := fun w o r mem => absurd mem (silent w o r)
  faults := opFaults
  failed := fun w o left mem => absurd mem (silent w o _)

theorem Effects.one {w : Event} (flash : t.flash = s.flash) (rram : t.rram = s.rram)
    (opFaults : t.opFaults = s.opFaults) (no : ∀ i o r, .op i o r ≠ w) : Effects e s [w] t :=
  .silent flash rram (opFaults ▸ List.suffix_refl _) fun i o r mem =>
    no i o r (List.mem_singleton.mp mem)

/-- The client of an entry is recorded right after it. -/
theorem Effects.created {v : Event} {l : List Event} (h : Effects e s ([v] ++ l) t) (i : Nat)
    (client : Client) : Effects e s (v :: .created i client :: l) t where
  devices := h.devices
  does := by
    intro w o r mem
    refine h.does w o r ?_
    simpa using mem
  faults := h.faults
  failed := by
    intro w o left mem
    refine h.failed w o left ?_
    simpa using mem

end Effects

theorem Ran.touches {s t : St} {w : Issuer} {o : Op} {r : Outcome} (possible : Possible e s o r)
    (ran : Ran s o r t) : Touches e (fun w' o' _ => w' = w ∧ o' = o) s [.op w o r] t :=
  .op ⟨rfl, rfl⟩ possible ran

/-- The blocks ahead end with the write. -/
theorem ahead_end {count len : Nat} (pos : aheadSize count len ≠ 0) :
    aheadOffset count + aheadSize count len = blockCount (count + len) * blockSize := by
  unfold aheadOffset aheadSize at *
  have : count / blockSize + 1 ≤ blockCount (count + len) := by
    by_contra no
    have : blockCount (count + len) - (count / blockSize + 1) = 0 := by omega
    rw [this, Nat.zero_mul] at pos
    exact pos rfl
  rw [← Nat.add_mul]
  congr 1
  omega

theorem blockCount_mono {a b : Nat} (h : a ≤ b) : blockCount a ≤ blockCount b := by
  unfold blockCount blockSize
  omega

theorem ahead_inside {client : Client} {count len length : Nat} (fit : count + len ≤ length)
    (fits : EraseFits client (aheadOffset count) (aheadSize count len)) :
    aheadOffset count + aheadSize count len ≤ max blockSize (blockCount length * blockSize) := by
  rw [ahead_end fits.pos]
  exact Nat.le_trans (Nat.mul_le_mul_right _ (blockCount_mono fit)) (Nat.le_max_right ..)

theorem next_inside {count length : Nat} (aligned : count % blockSize = 0) (lt : count < length) :
    count + blockSize ≤ max blockSize (blockCount length * blockSize) := by
  refine Nat.le_trans ?_ (Nat.le_max_right ..)
  unfold blockCount
  unfold blockSize at aligned ⊢
  omega

section image
variable {s t u a b n : St} {c : Cxt} {img : ImageHdr} {client : Client} {bytes : List UInt8}
  {l la lb ln : List Event} {ok ready : Bool}

/-- The accesses of the current image. -/
def ImageAccess (c : Cxt) (client : Client) (who : Issuer) (op : Op) : Prop :=
  ∃ offset, who = .image c.imageIndex client offset ∧ ImageOp client c.imageWrtLength offset op

theorem ImageAccess.does {who : Issuer} {op : Op} (h : ImageAccess c client who op)
    (current : Current s c img) (place : s.partition = some client ∨ Places e s c img client) :
    Does e s c who op := by
  obtain ⟨offset, rfl, h⟩ := h
  exact .image current place h

abbrev Accesses (e : Env) (c : Cxt) (client : Client) :=
  Touches e fun who op _ => ImageAccess c client who op

theorem EraseRun.access {offset size : Nat}
    (h : EraseRun e (.image c.imageIndex client offset) client offset size s l t ok)
    (inside : EraseFits client offset size →
      offset + size ≤ max blockSize (blockCount c.imageWrtLength * blockSize)) :
    Accesses e c client s l t :=
  h.touches.mono fun _ _ _ ⟨hw, ho, fits⟩ => ⟨offset, hw, ho ▸ .erase fits (inside fits)⟩

theorem WriteRun.access
    (h : WriteRun e (.image c.imageIndex client c.imageWrtCount) client c.imageWrtCount bytes s l t
      ok) (fit : c.imageWrtCount + bytes.length ≤ c.imageWrtLength) :
    Accesses e c client s l t :=
  h.touches.mono fun _ _ _ ⟨hw, ho, fits⟩ => ⟨_, hw, ho ▸ .write fits fit⟩

theorem ahead_access (fit : c.imageWrtCount + bytes.length ≤ c.imageWrtLength)
    (ahead : EraseRun e (.image c.imageIndex client (aheadOffset c.imageWrtCount)) client
      (aheadOffset c.imageWrtCount) (aheadSize c.imageWrtCount bytes.length) s la a ok) :
    Accesses e c client s la a :=
  ahead.access fun fits => ahead_inside fit fits

theorem chunk_access (fit : c.imageWrtCount + bytes.length ≤ c.imageWrtLength)
    (ahead : if Crosses c.imageWrtCount bytes.length then
        EraseRun e (.image c.imageIndex client (aheadOffset c.imageWrtCount)) client
          (aheadOffset c.imageWrtCount) (aheadSize c.imageWrtCount bytes.length) s la a true
      else la = [] ∧ a = s)
    (write : WriteRun e (.image c.imageIndex client c.imageWrtCount) client c.imageWrtCount bytes
      a lb b true)
    (next : if (c.imageWrtCount + bytes.length) % blockSize = 0 ∧
          c.imageWrtCount + bytes.length < c.imageWrtLength then
        EraseRun e (.image c.imageIndex client (c.imageWrtCount + bytes.length)) client
          (c.imageWrtCount + bytes.length) blockSize b ln n ready
      else ln = [] ∧ n = b) :
    Accesses e c client s (la ++ (lb ++ ln)) n := by
  have first : Accesses e c client s la a := by
    split at ahead
    · exact ahead_access fit ahead
    · obtain ⟨rfl, rfl⟩ := ahead
      exact .refl _
  have last : Accesses e c client b ln n := by
    split at next
    · rename_i more
      exact next.access fun _ => next_inside more.1 more.2
    · obtain ⟨rfl, rfl⟩ := next
      exact .refl _
  exact first.trans ((write.access fit).trans last)

theorem spoil_access (fit : c.imageWrtCount + bytes.length ≤ c.imageWrtLength)
    (ahead : if Crosses c.imageWrtCount bytes.length then
        EraseRun e (.image c.imageIndex client (aheadOffset c.imageWrtCount)) client
          (aheadOffset c.imageWrtCount) (aheadSize c.imageWrtCount bytes.length) s la a ok
      else la = [] ∧ a = s ∧ ok = true)
    (write : if ok = true then
        WriteRun e (.image c.imageIndex client c.imageWrtCount) client c.imageWrtCount bytes
          a lb b false
      else lb = [] ∧ b = a) :
    Accesses e c client s (la ++ lb) b := by
  have first : Accesses e c client s la a := by
    split at ahead
    · exact ahead_access fit ahead
    · obtain ⟨rfl, rfl, -⟩ := ahead
      exact .refl _
  apply first.trans
  split at write
  · exact write.access fit
  · obtain ⟨rfl, rfl⟩ := write
    exact .refl _

end image

theorem Entered.does {s t : St} {c : Cxt} {client : Client} {out : Outcome}
    (h : Entered e s client out t) (state : c.fwUpgradeState.erased = true)
    (fwd : client.fwdIdx = c.trialFwdIdx) :
    Touches e (fun who op _ => Does e s c who op) s
      [.op (.entry client.fwdIdx client.imgIdx) client.entryOp out] t :=
  h.touches.mono fun who op _ ⟨hw, ho, _⟩ => by
    rw [hw, ho]
    exact .entry state fwd h.fwd (entryOf_some h.slot).1

/-- Every move's operations are all in the trace. -/
theorem Move.effects {s t : St} {h h' : List Event} (m : Move e retry (s, h) (t, h')) :
    ∃ k, h' = h ++ k ∧ Effects e s k t := by
  have none : ∀ {x : St}, x.flash = s.flash → x.rram = s.rram → x.opFaults = s.opFaults →
      ∃ k, h = h ++ k ∧ Effects e s k x := fun flash rram faults =>
    ⟨[], (List.append_nil h).symm, .silent flash rram (faults ▸ List.suffix_refl _) (by simp)⟩
  cases m with
  | quiet q => exact ⟨[], (List.append_nil h).symm, .silent q.flash q.rram q.ops (by simp)⟩
  | close | attach | detach | tune | aim | early | skipTo | begin | lost | skipEmpty
  | dupBegin | dupNext | dupSkip => exact none rfl rfl rfl
  | note n | reset | headerHash | accept =>
    exact ⟨_, rfl, .one rfl rfl rfl (by rintro i o r ⟨⟩)⟩
  | select hc state selected q other =>
    exact ⟨_, rfl, .silent q.flash q.rram q.ops (by simp)⟩
  | erased hc state lt possible ran =>
    exact ⟨_, rfl, (ran.touches possible).effects hc (fun w o r ⟨hw, ho⟩ =>
      hw ▸ ho ▸ .erase state lt) rfl rfl rfl⟩
  | notErased hc state lt bad possible ran =>
    exact ⟨_, rfl, (ran.touches possible).effects hc (fun w o r ⟨hw, ho⟩ =>
      hw ▸ ho ▸ .erase state lt) rfl rfl rfl⟩
  | bulk hc state which found touches =>
    exact ⟨_, rfl, touches.effects hc (fun w o r ⟨offset, hw, ho⟩ =>
      hw ▸ .part state which found ho) rfl rfl rfl⟩
  | hide hc state first fwd hidden entered =>
    exact ⟨_, rfl, (entered.does (by rw [state]; rfl) fwd).effects hc (fun _ _ _ h => h)
      rfl rfl rfl⟩
  | field hc state first lt header possible ran =>
    exact ⟨_, rfl, (ran.touches possible).effects hc (fun w o r ⟨hw, ho⟩ =>
      hw ▸ ho ▸ .field state lt header) rfl rfl rfl⟩
  | @emptyFs1 _ _ _ _ client hs hc state loose first empty fwd id entered =>
    have enter := entered.does (by rw [state]; rfl) fwd
    refine ⟨_, rfl, .created (enter.effects hc (fun _ _ _ h => h) ?_ ?_ ?_) _ client⟩ <;> rfl
  | noEntry hc state fwd bad entered =>
    exact ⟨_, rfl, (entered.does state fwd).effects hc (fun _ _ _ h => h) rfl rfl rfl⟩
  | place hs hc current count len placed entered first handle reset =>
    have enter := entered.does (by rw [current.state]; rfl) placed.fwd
    rename_i t₁ u l c img client ready k digest
    have erase : Touches e (fun who op _ => Does e s c who op) t₁ l u := by
      split at first
      · obtain ⟨rfl, rfl, -⟩ := first
        exact .refl _
      · exact (first.access fun _ => by rw [Nat.zero_add]; exact Nat.le_max_left ..).mono
          fun who op _ h => h.does current (.inr ⟨len, placed, entered.placeable⟩)
    refine ⟨_, List.append_assoc .., ?_⟩
    refine .created ((enter.trans erase).effects hc (fun _ _ _ h => h) ?_ ?_ ?_) _ client <;> rfl
  | chunk bufOffset hc current part ne fit ahead write next =>
    refine ⟨_, by simp only [List.append_assoc], (chunk_access fit ahead write next).effects hc
      (fun w o r h => h.does current (.inl part)) rfl rfl rfl⟩
  | spoil bufOffset hc current part fit ahead write =>
    refine ⟨_, List.append_assoc .., (spoil_access fit ahead write).effects hc
      (fun w o r h => h.does current (.inl part)) rfl rfl rfl⟩
  | complete hs hc current part pos full notes q hash =>
    refine ⟨_, List.append_assoc .., .silent q.flash q.rram q.ops fun w o r mem => ?_⟩
    rcases List.mem_append.mp mem with mem | mem
    · obtain ⟨n, eq⟩ := notes _ mem
      cases eq
    · simp at mem
  | giveUp hs hc state events q =>
    refine ⟨_, rfl, .silent q.flash q.rram q.ops fun w o r mem => ?_⟩
    rcases events _ mem with ⟨n, eq⟩ | ⟨i, b, eq⟩ <;> cases eq
  | @dupPlace _ _ _ _ _ _ client _ hs hc state loose imageHdr hdr flag special fwd id start size
      entered handle =>
    have enter := entered.does (by rw [state]; rfl) fwd
    refine ⟨_, rfl, .created (enter.effects hc (fun _ _ _ h => h) ?_ ?_ ?_) _ client⟩ <;> rfl
  | dupWork hc state part imageHdr hdr touches =>
    exact ⟨_, rfl, touches.effects hc (fun w o r ⟨offset, hw, ho⟩ =>
      hw ▸ .copy state part imageHdr hdr ho) rfl rfl rfl⟩
  | validate hc state lt possible ran =>
    exact ⟨_, rfl, (ran.touches possible).effects hc (fun w o r ⟨hw, ho⟩ =>
      hw ▸ ho ▸ .status state lt) rfl rfl rfl⟩
  | fde hc state possible ran =>
    exact ⟨_, rfl, (ran.touches possible).effects hc (fun w o r ⟨hw, ho⟩ =>
      hw ▸ ho ▸ .fde state) rfl rfl rfl⟩

end Qapp.Fw
