import Qapp.Lib.Slots
import Qapp.Fw.Filed
import Qapp.Fw.PowerLoss

/-!
# The table of the trial FWD

From the erase of its block on, the image entries of the trial FWD are the list of the partitions
that have been created, in their order.
-/

namespace Qapp.Fw
open ByteMem Traced
open Relation (ReflTransGen)

variable {e : Env} {s t s₀ : St} {h h' l k : List Event} {c d : Cxt} {f i j : Nat}
  {client : Client} {rs : List (List UInt8)} {w : Event}

/-! ## What the events say -/

/-- `image_entries` of a FWD. -/
def imageEntries (fwdIdx : Nat) : Nor.Slots := ⟨entryAddr fwdIdx 0, 16, maxImages⟩

/-- The bytes of the client's entry. -/
def Client.record (client : Client) : List UInt8 :=
  entryBytes client.imgId client.imgVersion client.imgStart client.imgSize

def recordId (r : List UInt8) : Nat := leNat (r.take 4)

/-- The FWD that has been erased, and the entries that have been written to it since. -/
abbrev Directory := Option (Nat × List (List UInt8))

def Directory.next (d : Directory) : Event → Directory
  | .op (.fwd f) _ .done => some (f, [])
  | .op (.entry f _) (.write _ r) .done =>
    d.map fun (g, rs) => (g, if f = g then rs ++ [r] else rs)
  | _ => d

def directory (l : List Event) : Directory := l.foldl Directory.next none

/-- Neither an erase of a FWD nor an entry. -/
structure Event.Plain (w : Event) : Prop where
  fwd : ∀ f op, w ≠ .op (.fwd f) op .done
  entry : ∀ f i op, w ≠ .op (.entry f i) op .done

theorem Directory.next_plain (d : Directory) (plain : w.Plain) : d.next w = d := by
  cases w with
  | op who op out =>
    cases out with
    | failed | rejected => cases who <;> cases op <;> rfl
    | done =>
      cases who with
      | fwd f => exact absurd rfl (plain.fwd f op)
      | entry f i => exact absurd rfl (plain.entry f i op)
      | _ => rfl
  | _ => rfl

theorem Directory.foldl_plain (d : Directory) (plain : ∀ w ∈ k, w.Plain) :
    k.foldl Directory.next d = d := by
  induction k with
  | nil => rfl
  | cons w k ih =>
    rw [List.foldl_cons, d.next_plain (plain w (List.mem_cons_self ..))]
    exact ih fun v mem => plain v (List.mem_cons_of_mem _ mem)

theorem directory_plain (plain : ∀ w ∈ k, w.Plain) : directory (h ++ k) = directory h := by
  rw [directory, List.foldl_append]
  exact Directory.foldl_plain _ plain

/-! ## What a move writes -/

/-- The entry of image `i` has the id of the header. Behind the end of the header only FS1 is
entered. -/
def Named (hdrs : List ImageHdr) (i : Nat) (client : Client) : Prop :=
  (∀ img, hdrs[i]? = some img → client.imgId = img.imageId) ∧
    (hdrs[i]? = none → client.imgId = fs1ImgId)

/-- A partition in the selected region begins where the next one is to be. -/
def Homed (c : Cxt) (i : Nat) (client : Client) : Prop :=
  client.imgId ≠ fs1ImgId → client.imgId ≠ sblImgId → client.imgStart = c.trialMemStart ∧
    (c.downloadFlag i = false ∨ i = c.imageIndex ∧ c.imageIndex < c.totalImages)

/-- What a move writes to the entries, if anything, comes first. -/
inductive Entering (e : Env) (s : St) (c : Cxt) : List Event → Prop
  | none {k : List Event} (entry : ∀ f i op out, .op (.entry f i) op out ∉ k)
      (created : ∀ i client, .created i client ∉ k) : Entering e s c k
  | entry {client : Client} {out : Outcome} {t : St} (erased : c.fwUpgradeState.erased = true)
      (fwd : client.fwdIdx = c.trialFwdIdx) (hidden : out = .done → isHidden client.imgId)
      (entered : Entered e s client out t) :
      Entering e s c [.op (.entry client.fwdIdx client.imgIdx) client.entryOp out]
  | create {client : Client} {i : Nat} {t : St} {rest : List Event}
      (erased : c.fwUpgradeState.erased = true) (fwd : client.fwdIdx = c.trialFwdIdx)
      (first : c.isFirst = false)
      (named : ∀ hdrs, s.imageHdr = some hdrs → Named hdrs i client) (homed : Homed c i client)
      (entered : Entered e s client .done t)
      (entry : ∀ f i op out, .op (.entry f i) op out ∉ rest)
      (created : ∀ i client, .created i client ∉ rest) :
      Entering e s c (.op (.entry client.fwdIdx client.imgIdx) client.entryOp .done ::
        .created i client :: rest)

theorem Named.of_get {hdrs : List ImageHdr} {img : ImageHdr} (imageHdr : s.imageHdr = some hdrs)
    (hdr : hdrs[i]? = some img) (id : client.imgId = img.imageId) :
    ∀ hdrs', s.imageHdr = some hdrs' → Named hdrs' i client := by
  intro hdrs' imageHdr'
  cases imageHdr.symm.trans imageHdr'
  refine ⟨fun img' hdr' => ?_, fun none => ?_⟩
  · cases hdr.symm.trans hdr'
    exact id
  · cases hdr.symm.trans none

theorem Placed.homed {img : ImageHdr} (placed : Placed e s c img client)
    (current : Current s c img) : Homed c c.imageIndex client := by
  rw [Homed, placed.id]
  exact fun fs1 sbl => ⟨(placed.mem fs1 sbl).1, .inr ⟨rfl, current.lt⟩⟩

theorem Touches.no_entry {P : Issuer → Op → Outcome → Prop} (touches : Touches e P s k t)
    (other : ∀ f i op out, ¬P (.entry f i) op out) :
    (∀ f i op out, .op (.entry f i) op out ∉ k) ∧ ∀ i client, .created i client ∉ k := by
  constructor
  · intro f i op out mem
    obtain ⟨n, ⟨⟩⟩ | ⟨w, o, r, eq, allowed⟩ := touches.events _ mem
    cases eq
    exact other f i op out allowed
  · intro i client mem
    obtain ⟨n, ⟨⟩⟩ | ⟨w, o, r, ⟨⟩, -⟩ := touches.events _ mem

theorem Touches.entering {P : Issuer → Op → Outcome → Prop} (touches : Touches e P s k t)
    (other : ∀ f i op out, ¬P (.entry f i) op out) : Entering e s₀ c k :=
  .none (touches.no_entry other).1 (touches.no_entry other).2

theorem ImageAccess.not_entry {f i : Nat} {op : Op} : ¬ImageAccess c client (.entry f i) op := by
  rintro ⟨offset, ⟨⟩, -⟩

theorem Move.entering (m : Move e false (s, h) (t, h')) (late : Late s) (hc : s.cxt = some c) :
    ∃ k, h' = h ++ k ∧ Entering e s c k := by
  have none : ∃ k, h = h ++ k ∧ Entering e s c k := by
    refine ⟨[], by simp, .none ?_ ?_⟩ <;> simp
  cases m with
  | quiet | close | attach | detach | tune | aim | early | skipTo | begin | lost | skipEmpty
  | dupBegin | dupNext | dupSkip => exact none
  | note | reset | select | headerHash | accept | erased | notErased | field | validate | fde =>
    refine ⟨_, rfl, .none ?_ ?_⟩ <;> simp
  | bulk hc' state which found touches =>
    refine ⟨_, rfl, touches.entering ?_⟩
    rintro f i op out ⟨offset, ⟨⟩, -⟩
  | hide hc' state first fwd hidden entered =>
    cases hc.symm.trans hc'
    exact ⟨_, rfl, .entry (by rw [state]; rfl) fwd (fun _ => hidden) entered⟩
  | noEntry hc' state fwd bad entered =>
    cases hc.symm.trans hc'
    exact ⟨_, rfl, .entry state fwd (fun done => absurd done bad) entered⟩
  | emptyFs1 hs hc' state loose first empty fwd id entered =>
    cases hc.symm.trans hc'
    refine ⟨_, rfl, .create (by rw [state]; rfl) fwd first (fun hdrs imageHdr => ⟨?_, ?_⟩)
      (fun other => absurd id other) entered ?_ ?_⟩
    · intro img hdr
      exact id.trans (empty hdrs img imageHdr hdr).1.symm
    · exact fun _ => id
    · simp
    · simp
  | place hs hc' current count len placed entered first handle reset =>
    cases hc.symm.trans hc'
    refine ⟨_, List.append_assoc .., ?_⟩
    obtain ⟨hdrs, imageHdr, hdr⟩ := current.hdr
    have named := Named.of_get imageHdr hdr placed.id
    have homed := placed.homed current
    have erased : c.fwUpgradeState.erased = true := by
      rw [current.state]
      rfl
    split at first
    · obtain ⟨rfl, -, -⟩ := first
      exact .create erased placed.fwd current.first named homed entered (by simp) (by simp)
    · have none := first.touches.no_entry (by rintro f i op out ⟨⟨⟩, -⟩)
      exact .create erased placed.fwd current.first named homed entered none.1 none.2
  | chunk bufOffset hc' current part ne fit ahead write next =>
    refine ⟨_, by simp only [List.append_assoc], (chunk_access fit ahead write next).entering ?_⟩
    exact fun _ _ _ _ => ImageAccess.not_entry
  | spoil bufOffset hc' current part fit ahead write =>
    refine ⟨_, List.append_assoc .., (spoil_access fit ahead write).entering ?_⟩
    exact fun _ _ _ _ => ImageAccess.not_entry
  | complete hs hc' current part pos full notes q hash =>
    refine ⟨_, List.append_assoc .., .none ?_ ?_⟩
    · intro f i op out mem
      obtain mem | mem := List.mem_append.mp mem
      · obtain ⟨n, ⟨⟩⟩ := notes _ mem
      · cases List.mem_singleton.mp mem
    · intro i client mem
      obtain mem | mem := List.mem_append.mp mem
      · obtain ⟨n, ⟨⟩⟩ := notes _ mem
      · cases List.mem_singleton.mp mem
  | giveUp hs hc' state events q =>
    refine ⟨_, rfl, .none ?_ ?_⟩
    · intro f i op out mem
      obtain ⟨n, ⟨⟩⟩ | ⟨i, b, ⟨⟩⟩ := events _ mem
    · intro i client mem
      obtain ⟨n, ⟨⟩⟩ | ⟨i, b, ⟨⟩⟩ := events _ mem
  | dupPlace hs hc' state loose imageHdr hdr flag special fwd id start size entered handle =>
    cases hc.symm.trans hc'
    have named := Named.of_get imageHdr hdr id
    exact ⟨_, rfl, .create (by rw [state]; rfl) fwd (late c hc (by rw [state]; rfl)).1 named
      (fun _ _ => ⟨start, .inl flag⟩) entered (by simp) (by simp)⟩
  | dupWork hc' state part imageHdr hdr touches =>
    refine ⟨_, rfl, touches.entering ?_⟩
    rintro f i op out ⟨offset, ⟨⟩, -⟩

/-! ## Entries in flash -/

@[simp] theorem imageEntries_base (f : Nat) : (imageEntries f).base = entryAddr f 0 := rfl
@[simp] theorem imageEntries_width (f : Nat) : (imageEntries f).width = 16 := rfl
@[simp] theorem imageEntries_count (f : Nat) : (imageEntries f).count = maxImages := rfl

theorem entryAddr_eq (f j : Nat) : entryAddr f j = (imageEntries f).addr j := by
  simp [Nor.Slots.addr, entryAddr]

theorem recordId_slot (m : Mem) (f j : Nat) :
    recordId ((imageEntries f).slot m j) = (fwdEntry m f j).imageId := by
  rw [recordId, Nor.Slots.slot, imageEntries_width, take_load m _ (by decide), ← entryAddr_eq]
  rfl

theorem recordId_blank : recordId (List.replicate 16 0xFF) = imageUnused := by decide

theorem length_record (client : Client) : client.record.length = 16 := length_entryBytes ..

/-- The id can be told from an unused entry. -/
theorem recordId_record (lt : client.imgId < imageUnused) :
    recordId client.record = client.imgId := by
  have id : client.record.take 4 = leBytes 4 client.imgId := by
    unfold Client.record entryBytes
    simp only [List.append_assoc]
    exact List.take_left' (length_leBytes ..)
  rw [recordId, id, leNat_leBytes]
  apply Nat.mod_eq_of_lt
  exact Nat.lt_trans lt (by decide)

/-- A lookup in the table is a search of the list. -/
theorem entryOf_holds {m : Mem} (holds : (imageEntries f).Holds m rs) {id : Nat}
    (used : id < imageUnused) : entryOf m f id = rs.findIdx? fun r => recordId r == id := by
  rw [← holds.find]
  · simp only [recordId_slot]
    rfl
  · rw [imageEntries_width, recordId_blank]
    exact beq_eq_false_iff_ne.mpr (Nat.ne_of_gt used)

/-- The next entry goes to the end of the list. -/
theorem entryOf_unused {m : Mem} (holds : (imageEntries f).Holds m rs)
    (used : ∀ r ∈ rs, recordId r ≠ imageUnused) (slot : entryOf m f imageUnused = some i) :
    i = rs.length ∧ i < maxImages := by
  apply holds.find_erased (p := fun r => recordId r == imageUnused)
  · exact beq_iff_eq.mpr recordId_blank
  · exact fun r mem => beq_eq_false_iff_ne.mpr (used r mem)
  · simp only [recordId_slot]
    exact slot

/-- The entries are behind the other fields. -/
def Op.SparesEntries (op : Op) (f : Nat) : Prop :=
  ∀ a n, op.flashRange = some (a, n) → a + n ≤ entryAddr f 0 ∨ entryAddr f maxImages ≤ a

theorem Op.Within.sparesEntries {op : Op} {hi : Nat} (within : op.Within (maxFwd * blockSize) hi)
    (lt : f < maxFwd) : op.SparesEntries f := by
  intro a n range
  right
  have := (within a n range).1
  unfold entryAddr fwdAddr
  unfold maxFwd maxImages blockSize at *
  omega

theorem Does.sparesEntries {who : Issuer} {op : Op} (does : Does e s c who op)
    (track : Track s₀ s h) (hc : s.cxt = some c) (proper : Proper e s₀ h) (late : Late s)
    (erased : c.fwUpgradeState.erased = true) (lt : c.trialFwdIdx < maxFwd)
    (other : ∀ f i, who ≠ .entry f i) : op.SparesEntries c.trialFwdIdx := by
  have info (info : FwdInfo) (value : Nat) : (Op.write (fwdAddr c.trialFwdIdx + info.offset)
      (leBytes info.size value)).SparesEntries c.trialFwdIdx := by
    intro a n range
    cases range
    left
    have := info.in_block
    rw [length_leBytes]
    unfold entryAddr
    omega
  cases does with
  | erase state =>
    rw [state] at erased
    cases erased
  | field => exact info _ _
  | entry => exact absurd rfl (other _ _)
  | part state which found access =>
    obtain ⟨found, inside⟩ := access.listed track hc proper state which found
    obtain ⟨lo, hi⟩ := proper.laid.parts _ _ which found
    exact (inside.within lo hi).sparesEntries lt
  | image current place access =>
    have inArea := (Does.image current place access).inArea track hc proper late
    exact (InArea.within inArea proper).sparesEntries lt
  | copy state part imageHdr hdr access =>
    have inArea := (Does.copy state part imageHdr hdr access).inArea track hc proper late
    exact (InArea.within inArea proper).sparesEntries lt
  | status => exact info .status statusValid
  | fde =>
    intro a n range
    cases range

/-- Operations that spare the entries. -/
theorem holds_replay (holds : (imageEntries f).Holds s.flash rs)
    (spares : ∀ who op out, .op who op out ∈ k → op.SparesEntries f) :
    (imageEntries f).Holds (Fw.replay s k).flash rs := by
  apply holds.congr
  intro x lo hi
  apply replay_flash
  intro who op out mem a n range
  have := spares who op out mem a n range
  simp only [imageEntries_base, imageEntries_width, imageEntries_count] at lo hi
  unfold entryAddr at *
  omega

/-! ## The course of a session -/

/-- The ids of the header can be told from an unused entry. -/
def Used (l : List Event) : Prop :=
  ∀ raw hdrs flags, .images raw hdrs flags ∈ l → ∀ r ∈ raw, r.imageId < imageUnused

/-- The erase of a FWD and its entries succeed. -/
def EntriesDone (l : List Event) : Prop :=
  (∀ f op out, .op (.fwd f) op out ∈ l → out = .done) ∧
    ∀ f i op out, .op (.entry f i) op out ∈ l → out = .done

theorem Acknowledged.entries (acked : Acknowledged l) : EntriesDone l :=
  ⟨fun _ _ _ mem => acked.ops _ _ _ mem, fun _ _ _ _ mem => acked.ops _ _ _ mem⟩

/-- The list of entries is what is in flash. -/
structure Listing (s : St) (l : List Event) : Prop where
  trial : ∀ c, s.cxt = some c → (directory l).map Prod.fst =
    if c.fwUpgradeState.erased then some c.trialFwdIdx else none
  table : ∀ f rs, directory l = some (f, rs) → f < maxFwd ∧ (imageEntries f).Holds s.flash rs
  created : ∀ i client, .created i client ∈ l → ∃ f rs, directory l = some (f, rs) ∧
    client.fwdIdx = f ∧ rs[client.imgIdx]? = some client.record
  named : ∀ i client, .created i client ∈ l → ∃ raw hdrs flags, .images raw hdrs flags ∈ l ∧
    Named raw i client
  entries : ∀ f rs j r, directory l = some (f, rs) → rs[j]? = some r → ∃ client,
    client.record = r ∧ (isHidden client.imgId ∨ ∃ i, .created i client ∈ l ∧ client.imgIdx = j)

theorem Named.below {raw : List ImageHdr} (named : Named raw i client)
    (used : ∀ r ∈ raw, r.imageId < imageUnused) : client.imgId < imageUnused := by
  cases hr : raw[i]? with
  | none =>
    rw [named.2 hr]
    decide
  | some r =>
    rw [named.1 r hr]
    exact used r (List.mem_of_getElem? hr)

theorem isHidden.below {id : Nat} (hidden : isHidden id) : id < imageUnused := by
  rcases hidden with rfl | rfl | rfl <;> decide

namespace Listing

/-- No entry looks unused. -/
theorem used (listing : Listing s l) (used : Used l) (dir : directory l = some (f, rs)) :
    ∀ r ∈ rs, recordId r ≠ imageUnused := by
  intro r mem
  obtain ⟨j, at_⟩ := List.mem_iff_getElem?.mp mem
  obtain ⟨client, rfl, hidden | ⟨i, created, -⟩⟩ := listing.entries f rs j r dir at_
  · rw [recordId_record hidden.below]
    exact Nat.ne_of_lt hidden.below
  · obtain ⟨raw, hdrs, flags, images, named⟩ := listing.named i client created
    have below := named.below (used _ _ _ images)
    rw [recordId_record below]
    exact Nat.ne_of_lt below

/-- Nothing is entered. -/
theorem still (listing : Listing s h) (dir : directory (h ++ k) = directory h)
    (trial : ∀ d, t.cxt = some d → (directory h).map Prod.fst =
      if d.fwUpgradeState.erased then some d.trialFwdIdx else none)
    (created : ∀ i client, .created i client ∉ k)
    (table : ∀ f rs, directory h = some (f, rs) → f < maxFwd → (imageEntries f).Holds s.flash rs →
      (imageEntries f).Holds t.flash rs) : Listing t (h ++ k) where
  trial := by rwa [dir]
  table := by
    intro f rs eq
    rw [dir] at eq
    obtain ⟨lt, holds⟩ := listing.table f rs eq
    exact ⟨lt, table f rs eq lt holds⟩
  created := by
    intro i client mem
    rw [dir]
    obtain mem | mem := List.mem_append.mp mem
    · exact listing.created i client mem
    · exact absurd mem (created i client)
  named := by
    intro i client mem
    obtain mem | mem := List.mem_append.mp mem
    · obtain ⟨raw, hdrs, flags, images, named⟩ := listing.named i client mem
      exact ⟨raw, hdrs, flags, List.mem_append_left _ images, named⟩
    · exact absurd mem (created i client)
  entries := by
    intro f rs j r eq at_
    rw [dir] at eq
    obtain ⟨client, record, kind⟩ := listing.entries f rs j r eq at_
    refine ⟨client, record, kind.imp_right ?_⟩
    rintro ⟨i, mem, idx⟩
    exact ⟨i, List.mem_append_left _ mem, idx⟩

/-- The block of the trial FWD has been erased. -/
theorem erase (listing : Listing s h) (none : directory h = none) (lt : f < maxFwd)
    (flash : t.flash = Nor.erase s.flash (fwdAddr f) blockSize)
    (trial : ∀ d, t.cxt = some d → d.fwUpgradeState.erased = true ∧ d.trialFwdIdx = f) :
    Listing t (h ++ [.op (.fwd f) (.erase (fwdAddr f) blockSize) .done]) := by
  have dir : directory (h ++ [.op (.fwd f) (.erase (fwdAddr f) blockSize) .done]) =
      some (f, []) := by
    rw [directory, List.foldl_append]
    rfl
  have nothing : ∀ i client,
      .created i client ∉ h ++ [.op (.fwd f) (.erase (fwdAddr f) blockSize) .done] := by
    intro i client mem
    obtain mem | mem := List.mem_append.mp mem
    · obtain ⟨g, rs, eq, -⟩ := listing.created i client mem
      cases none.symm.trans eq
    · cases List.mem_singleton.mp mem
  constructor
  · intro d hd
    obtain ⟨erased, rfl⟩ := trial d hd
    rw [dir, erased]
    rfl
  · intro g rs eq
    cases dir.symm.trans eq
    refine ⟨lt, ?_⟩
    rw [flash]
    apply Nor.Slots.Holds.erased
    · rw [imageEntries_base]
      unfold entryAddr
      omega
    · simp only [imageEntries_base, imageEntries_width, imageEntries_count]
      unfold entryAddr maxImages blockSize
      omega
  · exact fun i client mem => absurd mem (nothing i client)
  · exact fun i client mem => absurd mem (nothing i client)
  · intro g rs j r eq at_
    cases dir.symm.trans eq
    simp at at_

/-- One more entry, and whatever is done behind the entries after it. -/
theorem enter (listing : Listing s h) (dir : directory h = some (f, rs)) (used : Used h) {u : St}
    (entered : Entered e s client .done u) (fwd : client.fwdIdx = f)
    (devices : SameDevices t
      (replay s (.op (.entry client.fwdIdx client.imgIdx) client.entryOp .done :: k)))
    (trial : ∀ d, t.cxt = some d → d.fwUpgradeState.erased = true ∧ d.trialFwdIdx = f)
    (plain : ∀ w ∈ k, w.Plain) (spares : ∀ who op out, .op who op out ∈ k → op.SparesEntries f)
    (which : isHidden client.imgId ∨ ∃ i, .created i client ∈ k)
    (created : ∀ i c, .created i c ∈ k → c = client ∧
      ∃ raw hdrs flags, .images raw hdrs flags ∈ h ∧ Named raw i client) :
    Listing t (h ++ .op (.entry client.fwdIdx client.imgIdx) client.entryOp .done :: k) := by
  subst fwd
  obtain ⟨lt, holds⟩ := listing.table _ rs dir
  obtain ⟨idx, more⟩ := entryOf_unused holds (listing.used used dir) entered.slot
  have after : directory (h ++ .op (.entry client.fwdIdx client.imgIdx) client.entryOp .done :: k) =
      some (client.fwdIdx, rs ++ [client.record]) := by
    have first : (directory h).next
        (.op (.entry client.fwdIdx client.imgIdx) client.entryOp .done) =
          some (client.fwdIdx, rs ++ [client.record]) := by
      rw [dir]
      simp [Directory.next, Client.entryOp, Client.record]
    rw [directory, List.foldl_append, List.foldl_cons]
    change k.foldl Directory.next ((directory h).next _) = _
    rw [first, Directory.foldl_plain _ plain]
  constructor
  · intro d hd
    obtain ⟨erased, fwd⟩ := trial d hd
    rw [after, erased, ← fwd]
    rfl
  · intro g rs' eq
    cases after.symm.trans eq
    refine ⟨lt, ?_⟩
    rw [devices.1]
    refine holds_replay (s := client.entryOp.run .done s) ?_ spares
    have pushed := holds.push (r := client.record) (idx ▸ more) (length_record client)
    rwa [← entryAddr_eq, ← idx] at pushed
  · intro i c mem
    refine ⟨_, _, after, ?_⟩
    obtain mem | mem := List.mem_append.mp mem
    · obtain ⟨g, rs', eq, fwd, at_⟩ := listing.created i c mem
      cases dir.symm.trans eq
      exact ⟨fwd, List.getElem?_append_left (List.getElem?_eq_some_iff.mp at_).1 ▸ at_⟩
    · have mem := (List.mem_cons.mp mem).resolve_left (by rintro ⟨⟩)
      obtain ⟨rfl, -⟩ := created i c mem
      refine ⟨rfl, ?_⟩
      rw [idx]
      simp
  · intro i c mem
    have sub {w : Event} (mem : w ∈ h) := List.mem_append_left
      (.op (.entry client.fwdIdx client.imgIdx) client.entryOp .done :: k) mem
    obtain mem | mem := List.mem_append.mp mem
    · obtain ⟨raw, hdrs, flags, images, named⟩ := listing.named i c mem
      exact ⟨raw, hdrs, flags, sub images, named⟩
    · have mem := (List.mem_cons.mp mem).resolve_left (by rintro ⟨⟩)
      obtain ⟨rfl, raw, hdrs, flags, images, named⟩ := created i c mem
      exact ⟨raw, hdrs, flags, sub images, named⟩
  · intro g rs' j r eq at_
    cases after.symm.trans eq
    by_cases old : j < rs.length
    · rw [List.getElem?_append_left old] at at_
      obtain ⟨c, record, kind⟩ := listing.entries _ rs j r dir at_
      refine ⟨c, record, kind.imp_right ?_⟩
      rintro ⟨i, mem, idx⟩
      exact ⟨i, List.mem_append_left _ mem, idx⟩
    · rw [List.getElem?_append_right (Nat.not_lt.mp old)] at at_
      obtain ⟨here, rfl⟩ := List.getElem?_eq_some_iff.mp at_
      refine ⟨client, by simp, which.imp_right ?_⟩
      rintro ⟨i, mem⟩
      refine ⟨i, List.mem_append_right _ (List.mem_cons_of_mem _ mem), ?_⟩
      simp only [List.length_singleton] at here
      omega

end Listing

/-- An image is noted as created right after its entry. -/
theorem Move.created_op (m : Move e false (s, h) (t, h ++ k)) (late : Late s)
    (silent : ∀ who op out, .op who op out ∉ k) : ∀ i client, .created i client ∉ k := by
  intro i client mem
  obtain ⟨k', eq, marks⟩ := m.marks
  cases List.append_cancel_left eq
  cases marks _ mem with
  | created hc =>
    obtain ⟨k', eq, entering⟩ := m.entering late hc
    cases List.append_cancel_left eq
    cases entering with
    | none entry created => exact created _ _ mem
    | entry => exact silent _ _ _ (List.mem_cons_self ..)
    | create => exact silent _ _ _ (List.mem_cons_self ..)
  | other _ created => exact created _ _ rfl

/-- An entry of the header as it was received. -/
theorem Loaded.named {start : Nat} {raw hdrs : List ImageHdr} {a : EntrySums}
    (loaded : Loaded s₀ s c l start raw hdrs a) (named : Named hdrs i client) :
    Named raw i client := by
  constructor
  · intro r hr
    obtain ⟨img, hdr, id⟩ := loaded.sent hr
    exact (named.1 img hdr).trans id
  · intro none
    apply named.2
    have len := checkEntries_length loaded.checked
    rw [List.getElem?_eq_none_iff] at none ⊢
    omega

theorem Listing.step (listing : Listing s h) (m : Move e false (s, h) (t, h')) (late : Late s)
    (track : Track s₀ s h) (proper : Proper e s₀ h) (done : EntriesDone h') (used : Used h') :
    Listing t h' := by
  obtain ⟨k, rfl, effects⟩ := m.effects
  have used' : Used h := fun raw hdrs flags mem =>
    used raw hdrs flags (List.mem_append_left _ mem)
  have quiet (silent : ∀ who op out, .op who op out ∉ k) : ∀ w ∈ k, w.Plain := fun w mem =>
    ⟨fun f op eq => silent _ _ _ (eq ▸ mem), fun f i op eq => silent _ _ _ (eq ▸ mem)⟩
  cases hd : t.cxt with
  | none =>
    obtain ⟨k', eq, silent, -⟩ := m.closed hd
    cases List.append_cancel_left eq
    apply listing.still (directory_plain (quiet silent)) (by simp [hd]) (m.created_op late silent)
    intro f rs _ _ holds
    rwa [effects.devices.1, replay_silent s silent]
  | some d =>
    obtain ⟨c, k', hc, eq, choosing⟩ := m.choosing hd
    cases List.append_cancel_left eq
    obtain ⟨k', eq, entering⟩ := m.entering late hc
    cases List.append_cancel_left eq
    have trial := listing.trial c hc
    have not_erased (no : c.fwUpgradeState.erased = false) : directory h = none := by
      rw [no] at trial
      simpa using trial
    cases choosing with
    | on fwd aimed erased unselected undone =>
      by_cases yes : c.fwUpgradeState.erased = true
      · have trial' : ∀ d', t.cxt = some d' →
            d'.fwUpgradeState.erased = true ∧ d'.trialFwdIdx = c.trialFwdIdx := by
          intro d' hd'
          cases hd.symm.trans hd'
          exact ⟨erased.trans yes, fwd⟩
        rw [if_pos yes] at trial
        obtain ⟨⟨f, rs⟩, dir, rfl⟩ := Option.map_eq_some_iff.mp trial
        obtain ⟨lt, -⟩ := listing.table _ _ dir
        have no_fwd : ∀ f op out, .op (.fwd f) op out ∉ k := by
          intro f op out mem
          obtain ⟨c', hc', does⟩ := effects.does _ _ _ mem
          cases hc.symm.trans hc'
          cases does with
          | erase state =>
            rw [state] at yes
            cases yes
        have spares : ∀ who op out, .op who op out ∈ k → (∀ f i, who ≠ .entry f i) →
            op.SparesEntries c.trialFwdIdx := by
          intro who op out mem other
          obtain ⟨c', hc', does⟩ := effects.does _ _ _ mem
          cases hc.symm.trans hc'
          exact does.sparesEntries track hc proper late yes lt other
        cases entering with
        | none entry created =>
          have plain : ∀ w ∈ k, w.Plain := fun w mem =>
            ⟨fun f op eq => no_fwd _ _ _ (eq ▸ mem), fun f i op eq => entry _ _ _ _ (eq ▸ mem)⟩
          apply listing.still (directory_plain plain) _ created
          · intro f rs' eq _ holds
            cases dir.symm.trans eq
            rw [effects.devices.1]
            apply holds_replay holds
            intro who op out mem
            exact spares who op out mem fun f i eq => entry _ _ _ _ (eq ▸ mem)
          · intro d' hd'
            obtain ⟨erased, fwd⟩ := trial' d' hd'
            rw [dir, erased, fwd]
            rfl
        | entry erased' fwd' hidden entered =>
          cases done.2 _ _ _ _ (List.mem_append_right _ (List.mem_cons_self ..))
          exact listing.enter dir used' entered fwd' effects.devices trial' (by simp) (by simp)
            (.inl (hidden rfl)) (by simp)
        | @create client i u rest erased' fwd' first named homed entered entry created =>
          have only : ∀ {who op out}, .op who op out ∈ Event.created i client :: rest →
              .op who op out ∈ rest := fun mem => (List.mem_cons.mp mem).resolve_left (by rintro ⟨⟩)
          apply listing.enter dir used' entered fwd' effects.devices trial'
          · intro w mem
            constructor
            · rintro f op rfl
              exact no_fwd _ _ _ (List.mem_cons_of_mem _ mem)
            · rintro f i op rfl
              exact entry _ _ _ _ (only mem)
          · intro who op out mem
            apply spares who op out (List.mem_cons_of_mem _ mem)
            rintro f i rfl
            exact entry _ _ _ _ (only mem)
          · exact .inr ⟨i, List.mem_cons_self ..⟩
          · intro j p mem
            obtain eq | mem := List.mem_cons.mp mem
            · cases eq
              obtain ⟨-, start, size, raw, hdrs, a, -, loaded⟩ := (track.cxt c hc).loaded first
              exact ⟨rfl, raw, hdrs, _, loaded.images, loaded.named (named hdrs loaded.imageHdr)⟩
            · exact absurd mem (created _ _)
      · have no : c.fwUpgradeState.erased = false := by simpa using yes
        have dir := not_erased no
        have silent : ∀ w o, .op w o .done ∉ k := undone no
        cases entering with
        | none entry created =>
          have plain : ∀ w ∈ k, w.Plain := fun w mem =>
            ⟨fun f op eq => silent _ _ (eq ▸ mem), fun f i op eq => silent _ _ (eq ▸ mem)⟩
          apply listing.still (directory_plain plain) _ created
          · intro f rs eq
            cases dir.symm.trans eq
          · intro d' hd'
            cases hd.symm.trans hd'
            rw [dir, erased, no]
            rfl
        | entry erased' => exact absurd erased' yes
        | create erased' => exact absurd erased' yes
    | away unaimed no nothing =>
      subst nothing
      have dir := not_erased no
      apply listing.still (directory_plain (by simp)) _ (by simp)
      · intro f rs eq
        cases dir.symm.trans eq
      · intro d' hd'
        cases hd.symm.trans hd'
        rw [dir]
        cases erased : d.fwUpgradeState.erased with
        | false => rfl
        | true => exact absurd (.inr erased) unaimed
    | select no state selected event =>
      subst event
      have dir := not_erased no
      apply listing.still (directory_plain (quiet (by simp))) _ (by simp)
      · intro f rs eq
        cases dir.symm.trans eq
      · intro d' hd'
        cases hd.symm.trans hd'
        rw [dir, state]
        rfl
    | erase state fwd erased event =>
      subst event
      obtain ⟨c', hc', does⟩ := effects.does _ _ _ (List.mem_cons_self ..)
      cases hc.symm.trans hc'
      have lt : c.trialFwdIdx < maxFwd := by
        cases does with
        | erase _ lt => exact lt
      apply listing.erase (not_erased (by rw [state]; rfl)) lt effects.devices.1
      intro d' hd'
      cases hd.symm.trans hd'
      exact ⟨erased, fwd⟩

theorem listing_of_moves (moves : Moves e false (s, h) (t, h')) (late : Late s)
    (proper : Proper e s₀ h') (done : EntriesDone h') (used : Used h') (track : Track s₀ s h)
    (listing : Listing s h) : Listing t h' := by
  refine (invariant_of_step (I := fun x => Late x.1 ∧ (Proper e s₀ x.2 → Track s₀ x.1 x.2) ∧
      (Proper e s₀ x.2 → EntriesDone x.2 → Used x.2 → Listing x.1 x.2))
    (fun x y h m => ?_) moves ⟨late, fun _ => track, fun _ _ _ => listing⟩).2.2 proper done used
  obtain ⟨late, track, listing⟩ := h
  obtain ⟨k, eq, -⟩ := m.effects
  have before : Proper e s₀ y.2 → Proper e s₀ x.2 := by
    rw [eq]
    exact Proper.before
  refine ⟨m.late late, fun proper => m.track (before proper) late (track (before proper)), ?_⟩
  intro proper done used
  refine (listing (before proper) ?_ ?_).step m late (track (before proper)) (before proper) done
    used
  · rw [eq] at done
    exact ⟨fun f op out mem => done.1 f op out (List.mem_append_left _ mem),
      fun f i op out mem => done.2 f i op out (List.mem_append_left _ mem)⟩
  · rw [eq] at used
    exact fun raw hdrs flags mem => used raw hdrs flags (List.mem_append_left _ mem)

/-! ## The session -/

theorem Listing.blank (events : ∀ w ∈ l, (∃ n, w = .note n) ∨ w = .start)
    (cxt : ∀ c, s.cxt = some c → c.fwUpgradeState.erased = false) : Listing s l := by
  have plain : ∀ w ∈ l, w.Plain := by
    intro w mem
    obtain ⟨n, rfl⟩ | rfl := events w mem
    · constructor <;> nofun
    · constructor <;> nofun
  have none : directory l = none := Directory.foldl_plain none plain
  have nothing : ∀ i client, .created i client ∉ l := by
    intro i client mem
    obtain ⟨n, ⟨⟩⟩ | ⟨⟨⟩⟩ := events _ mem
  constructor
  · intro c hc
    rw [none, cxt c hc]
    rfl
  · intro f rs eq
    cases none.symm.trans eq
  · exact fun i client mem => absurd mem (nothing i client)
  · exact fun i client mem => absurd mem (nothing i client)
  · intro f rs j r eq
    cases none.symm.trans eq

theorem Since.listing (since : Since e false s₀ s l) (proper : Proper e s₀ l)
    (done : EntriesDone l) (used : Used l) : Listing s l := by
  cases since with
  | idle none still notes =>
    exact .blank (fun w mem => .inl (notes w mem)) (by simp [none])
  | @moves s₁ k fresh still notes moves =>
    have events : ∀ w ∈ k ++ [.start], (∃ n, w = .note n) ∨ w = .start := by
      intro w mem
      obtain mem | mem := List.mem_append.mp mem
      · exact .inl (notes w mem)
      · exact .inr (List.mem_singleton.mp mem)
    have first : ∀ c, s₁.cxt = some c → c = freshCxt := fun c hc =>
      (Option.some.inj (fresh.symm.trans hc)).symm
    have track : Track s₀ s₁ (k ++ [.start]) := by
      refine .still still (fun who op out mem => ?_) first
      obtain ⟨n, ⟨⟩⟩ | ⟨⟨⟩⟩ := events _ mem
    have late : Late s₁ := .of_state fresh fun h => by cases h
    refine listing_of_moves moves late proper done used track (.blank events fun c hc => ?_)
    rw [first c hc]
    rfl

/-- From the erase of its block on, the table of the trial FWD is the list of the entries that have
been written to it: they are in the first slots, the other slots are erased, a lookup finds the
first entry with the id, and the entry of each image that was created is there. -/
theorem trial_table_lists (calls : Calls e Fresh s₀ s l) (proper : Proper e s₀ l)
    (done : EntriesDone l) (used : Used l) (dir : directory l = some (f, rs)) :
    (imageEntries f).Holds s.flash rs ∧
    (∀ id < imageUnused, entryOf s.flash f id = rs.findIdx? fun r => recordId r == id) ∧
    ∀ i client, .created i client ∈ l → client.fwdIdx = f ∧
      rs[client.imgIdx]? = some client.record ∧
      ∃ raw hdrs flags, .images raw hdrs flags ∈ l ∧ Named raw i client := by
  have again : ∀ s p, Fresh s p → p.offset = 0 ∨ false = true ∨ NotBegun s :=
    fun s p h => h.imp_right .inr
  have listing := (calls.since false again).2.listing proper done used
  obtain ⟨-, holds⟩ := listing.table f rs dir
  refine ⟨holds, fun id lt => entryOf_holds holds lt, fun i client mem => ?_⟩
  obtain ⟨g, rs', eq, fwd, at_⟩ := listing.created i client mem
  cases dir.symm.trans eq
  exact ⟨fwd, at_, listing.named i client mem⟩

def plainEntries : List (List UInt8) :=
  [entryBytes fs2ImgId 1 (3 * blockSize) blockSize,
    entryBytes appImgId 1 (302 * blockSize) blockSize]

theorem Used.of_all {imgs : List ImageHdr} (all : l.all (Event.accepts imgs) = true)
    (used : ∀ r ∈ imgs, r.imageId < imageUnused) : Used l := by
  intro raw hdrs flags mem
  have accepts := mem_of_all all mem
  simp only [Event.accepts, beq_iff_eq] at accepts
  rwa [accepts]

theorem plainRun_lists :
    (imageEntries 1).Holds (sessionProcess plainEnv 40 (.of 0 plainUpload) plainDevice).state.flash
      plainEntries ∧
    (∀ id < imageUnused, entryOf
      (sessionProcess plainEnv 40 (.of 0 plainUpload) plainDevice).state.flash 1 id =
        plainEntries.findIdx? fun r => recordId r == id) ∧
    ∀ i client, .created i client ∈ plainRun → client.fwdIdx = 1 ∧
      plainEntries[client.imgIdx]? = some client.record ∧
      ∃ raw hdrs flags, .images raw hdrs flags ∈ plainRun ∧ Named raw i client := by
  have idle : Calls plainEnv Fresh plainDevice plainDevice [] := .idle rfl
  have used : Used plainRun := by
    apply Used.of_all plainRun_accepts
    simp only [List.mem_singleton, forall_eq]
    decide
  exact trial_table_lists (idle.restart 40 (.of 0 plainUpload) rfl (.inl rfl)) plainRun_proper
    (Acknowledged.of_all plainRun_acked).entries used (by decide +kernel)

end Qapp.Fw
