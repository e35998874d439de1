import Qapp.Fw.Moves
import Qapp.Fw.Select

/-!
# The code makes only these moves

`Ctl` is what holds of the session context between two passes of the session loop,
also after an error. Each handler, started in its state, makes moves and keeps it.
-/

namespace Qapp.Fw
open ByteMem Traced
open Relation (ReflTransGen)

abbrev Moves (e : Env) (retry : Bool) := ReflTransGen (Move e retry)

def St.withCxt (s : St) (c : Cxt) : St := { s with cxt := some c }

@[simp] theorem withCxt_cxt (s : St) (c : Cxt) : (s.withCxt c).cxt = some c := rfl
@[simp] theorem withCxt_withCxt (s : St) (c c' : Cxt) :
    (s.withCxt c).withCxt c' = s.withCxt c' := rfl
@[simp] theorem withCxt_flash (s : St) (c : Cxt) : (s.withCxt c).flash = s.flash := rfl
@[simp] theorem withCxt_rram (s : St) (c : Cxt) : (s.withCxt c).rram = s.rram := rfl
@[simp] theorem withCxt_handles (s : St) (c : Cxt) : (s.withCxt c).handles = s.handles := rfl
@[simp] theorem withCxt_imageHdr (s : St) (c : Cxt) : (s.withCxt c).imageHdr = s.imageHdr := rfl
@[simp] theorem withCxt_init (s : St) (c : Cxt) :
    (s.withCxt c).fuInitialized = s.fuInitialized := rfl

theorem getCxt_run {s : St} {c : Cxt} (hc : s.cxt = some c) : getCxt s = ⟨.ok c, s, []⟩ := by
  unfold getCxt
  simp only [Act.bind_run, Act.read_run, Act.andThen_ok, hc, Act.pure_run, List.nil_append]

theorem getCxt_none {s : St} (hc : s.cxt = none) :
    getCxt s = ⟨.error .sessionNotStart, s, []⟩ := by
  unfold getCxt
  rw [Act.bind_ok (Act.read_run s), hc]
  rfl

theorem updateCxt_run {s : St} {c : Cxt} (hc : s.cxt = some c) (f : Cxt → Cxt) :
    updateCxt f s = ⟨.ok (), s.withCxt (f c), []⟩ := by
  unfold updateCxt
  simp only [Act.update_run, hc, Option.map_some, St.withCxt]

/-- The handles once `hdl` is released. -/
def freed (hdl : Option Nat) (hs : Nat → Client) : Nat → Client :=
  match hdl with
  | none => hs
  | some k => Function.update hs k { hs k with refCount := 0 }

theorem releasePartition_run {s : St} {c : Cxt} (hc : s.cxt = some c) :
    releasePartition s = ⟨.ok (), { s with
      handles := freed c.partitionHdl s.handles
      cxt := some { c with partitionHdl := none } }, []⟩ := by
  unfold releasePartition
  simp only [Act.update_run, hc]
  cases hk : c.partitionHdl with
  | none =>
    cases s
    cases c
    simp only at hc hk
    subst hc hk
    rfl
  | some k => rfl

/-- States in which no header has been accepted. -/
def FwState.early : FwState → Bool
  | .notStart | .getTrialInfo | .eraseFwd | .eraseSecondFs | .prepareFs | .processConfigFile => true
  | _ => false

/-- States in which the session may hold a partition. -/
def FwState.holds : FwState → Bool
  | .notStart | .getTrialInfo | .eraseFwd | .eraseSecondFs | .prepareFs | .processImage => true
  | _ => false

/-- States an all-in-one upgrade does not enter once the header is accepted. -/
def FwState.partialOnly : FwState → Bool
  | .prepareConnect | .connect | .disconnectServer | .duplicateImages => true
  | _ => false

/-- States between the images. -/
def FwState.receiving : FwState → Bool
  | .connect | .receiveData | .processImage => true
  | _ => false

/-- The part of the header that is always received first has been checked. -/
structure ConfigOk (b : List UInt8) : Prop where
  len : hdrPart1Len ≤ b.length
  pos : 0 < hdrNumImages b
  le : hdrNumImages b ≤ maxImages

/-- What holds of a session between two passes of its loop. -/
structure Ctl (s : St) (c : Cxt) : Prop where
  init : s.fuInitialized = true
  held : ∀ k, c.partitionHdl = some k → k < maxHandles ∧ 0 < (s.handles k).refCount
  first : c.fwUpgradeState.early = true → c.isFirst = true
  fresh : c.isFirst = true → c.imageIndex = 0 ∧ c.imageWrtLength = 0 ∧ c.duplicateIndex = 0 ∧
    ∀ i, c.downloadFlag i = true
  loose : c.fwUpgradeState.holds = false →
    c.fwUpgradeState ≠ .receiveData ∨ c.isFirst = true → c.partitionHdl = none
  accepted : c.isFirst = false → ∃ hdrs, s.imageHdr = some hdrs ∧ hdrs.length = c.totalImages
  image : c.fwUpgradeState = .processImage → c.isFirst = false ∧ 0 < c.bufLen
  disconnect : c.fwUpgradeState = .disconnectServer → c.isFirst = false
  current : c.isFirst = false → c.fwUpgradeState.receiving = true →
    c.imageIndex < c.totalImages ∧ c.downloadFlag c.imageIndex = true
  full : c.format ≠ formatPartial → c.isFirst = false →
    (∀ i, c.downloadFlag i = true) ∧ c.fwUpgradeState.partialOnly = false
  count : c.isFirst = false → c.partitionHdl ≠ none →
    c.imageWrtLength = 0 ∨ c.imageWrtCount < c.imageWrtLength
  late : c.fwUpgradeState.late = true → c.isFirst = false ∧ c.totalImages ≤ c.imageIndex
  dup : c.fwUpgradeState.late = false → c.duplicateIndex = 0
  trial : c.fwUpgradeState = .eraseFwd ∨ c.fwUpgradeState.erased = true → c.trialFwdIdx < maxFwd
  config : ∀ b, c.configBuf = some b → ConfigOk b

def Good (s : St) : Prop := ∀ c, s.cxt = some c → Ctl s c

/-- `DUPLICATE_IMAGES` has not begun. -/
def NotBegun (s : St) : Prop :=
  ∀ c, s.cxt = some c → c.fwUpgradeState = .duplicateImages → c.duplicateIndex = 0

/-- What a pass of the session loop leaves. -/
def Left {α : Type} (r : Except Status α) (s : St) (_ : List Event) : Prop :=
  Good s ∧ ∀ a, r = .ok a → NotBegun s

/-- The session is in state `x`. -/
def In (x : FwState) (s : St) (_ : List Event) : Prop :=
  ∃ c, s.cxt = some c ∧ Ctl s c ∧ c.fwUpgradeState = x

theorem Good.of_ctl {s : St} {c : Cxt} (hc : s.cxt = some c) (ctl : Ctl s c) : Good s := by
  intro c' hc'
  rw [hc] at hc'
  cases hc'
  exact ctl

theorem NotBegun.of_ne {s : St} {c : Cxt} (hc : s.cxt = some c)
    (h : c.fwUpgradeState = .duplicateImages → c.duplicateIndex = 0) : NotBegun s := by
  intro c' hc'
  rw [hc] at hc'
  cases hc'
  exact h

theorem Ctl.heldSt {s : St} {c : Cxt} (ctl : Ctl s c) (hc : s.cxt = some c) : Held s := by
  intro c' hc'
  rw [hc] at hc'
  cases hc'
  exact ctl.held

/-- A change of the state that the session does not see. -/
theorem Ctl.congr {s t : St} {c : Cxt} (ctl : Ctl s c) (hc : s.cxt = some c)
    (init : t.fuInitialized = true) (cxt : t.cxt = s.cxt) (imageHdr : t.imageHdr = s.imageHdr)
    (partition : t.partition = s.partition) : Ctl t c := by
  have held := (ctl.heldSt hc).congr cxt partition
  exact { ctl with
    init := init
    held := held c (cxt.trans hc)
    accepted := fun h => by rw [imageHdr]; exact ctl.accepted h }

theorem Ctl.quiet {s t : St} {c : Cxt} (ctl : Ctl s c) (hc : s.cxt = some c) (q : Quiet s t) :
    Ctl t c := ctl.congr hc (q.init ctl.init).1 q.cxt q.imageHdr q.partition

theorem In.quiet {x : FwState} {s t : St} {l l' : List Event} (h : In x s l) (q : Quiet s t) :
    In x t l' := by
  obtain ⟨c, hc, ctl, hx⟩ := h
  exact ⟨c, q.cxt.trans hc, ctl.quiet hc q, hx⟩

theorem Ctl.touches {e : Env} {P : Issuer → Op → Outcome → Prop} {s t : St} {l : List Event}
    {c : Cxt} (ctl : Ctl s c) (hc : s.cxt = some c) (h : Touches e P s l t) : Ctl t c :=
  ctl.congr hc (h.init ctl.init).1 h.cxt h.imageHdr h.partition

theorem Edge.refl (c : Cxt) : Edge c c.fwUpgradeState :=
  ⟨rfl, id, .inl, fun _ _ _ => rfl, Nat.le_refl _⟩

section moves
variable {e : Env} {retry : Bool}

theorem Touches.moves {s t : St} {l : List Event} (h : Touches e (fun _ _ _ => False) s l t)
    (hist : List Event) : Moves e retry (s, hist) (t, hist ++ l) := by
  induction h generalizing hist with
  | quiet q => rw [List.append_nil]; exact .single (.quiet q)
  | note s n => exact .single (.note n)
  | op no => exact absurd no not_false
  | trans _ _ ih ih' =>
    rw [← List.append_assoc]
    exact (ih hist).trans (ih' _)

/-- A change of the fields that only steer the session. -/
theorem moves_tune {s : St} {h : List Event} {c c' : Cxt} (hc : s.cxt = some c)
    (eq : c' = { c with
      bufLen := c'.bufLen, bufOffset := c'.bufOffset, hiddenImagesCount := c'.hiddenImagesCount,
      configBuf := c'.configBuf, fwUpgradeState := c'.fwUpgradeState })
    (edge : Edge c c'.fwUpgradeState) : Moves e retry (s, h) (s.withCxt c', h) := by
  have step : Move e retry (s, h) _ := .tune c'.bufLen c'.bufOffset c'.hiddenImagesCount
    c'.configBuf c'.fwUpgradeState hc edge
  rw [← eq] at step
  exact .single step

theorem moves_notes {s : St} {l : List Event} (notes : ∀ w ∈ l, ∃ n, w = .note n)
    (h : List Event) : Moves e retry (s, h) (s, h ++ l) := by
  induction l generalizing h with
  | nil => rw [List.append_nil]
  | cons w l ih =>
    obtain ⟨n, rfl⟩ := notes w (List.mem_cons_self ..)
    have rest := ih (fun w hw => notes w (List.mem_cons_of_mem _ hw)) (h ++ [.note n])
    rw [List.append_assoc] at rest
    exact .head (.note n) rest

/-- Code that only reads makes quiet moves. -/
theorem OnlyReads.moves {α : Type} {P : St → List Event → Prop} {m : M α}
    {Q : Except Status α → St → List Event → Prop} (h : OnlyReads P m Q) :
    Sound (Move e retry) P m Q := by
  refine h.coarsen fun c d step => ?_
  cases c
  cases d
  obtain ⟨quiet, same⟩ := step
  simp only at same
  subst same
  exact .single (.quiet quiet)

theorem malloc_moves {P : St → List Event → Prop} {Q : Except Status Bool → St → List Event → Prop}
    (b : Block)
    (h : ∀ s l oom n ok, P s l → Q (.ok ok) { s with oom := oom } (l ++ [.note n])) :
    Sound (Move e retry) P (malloc b) Q := by
  intro s l hp
  obtain ⟨ok, t, run, eq, -⟩ := malloc_run b s
  rw [run]
  rw [eq]
  exact ⟨.tail (.single (.quiet (quiet_oom s _))) (.note _), h s l _ _ ok hp⟩

theorem note_moves {P : St → List Event → Prop} {Q : Except Status Unit → St → List Event → Prop}
    (n : Note) (h : ∀ s l, P s l → Q (.ok ()) s (l ++ [.note n])) :
    Sound (Move e retry) P (Act.emit (.note n)) Q :=
  .emit (fun _ _ _ => .single (.note n)) h

theorem getCxt_bind {α : Type} {P : St → List Event → Prop} {f : Cxt → M α}
    {Q : Except Status α → St → List Event → Prop} (running : ∀ s l, P s l → ∃ c, s.cxt = some c)
    (rest : ∀ c, Sound (Move e retry) (fun s l => s.cxt = some c ∧ P s l) (f c) Q) :
    Sound (Move e retry) P (getCxt >>= f) Q := by
  intro s l hp
  obtain ⟨c, hc⟩ := running s l hp
  rw [Act.bind_run, getCxt_run hc, Act.andThen_ok]
  exact rest c s l ⟨hc, hp⟩

/-- State `x` may follow when nothing else changes. -/
structure Goes (c : Cxt) (x : FwState) : Prop where
  first : x.early = true → c.isFirst = true
  loose : x.holds = false → x ≠ .receiveData ∨ c.isFirst = true → c.partitionHdl = none
  image : x = .processImage → c.isFirst = false
  disconnect : x = .disconnectServer → c.isFirst = false
  current : c.isFirst = false → x.receiving = true →
    c.imageIndex < c.totalImages ∧ c.downloadFlag c.imageIndex = true
  full : c.format ≠ formatPartial → c.isFirst = false → x.partialOnly = false
  late : x.late = true → c.isFirst = false ∧ c.totalImages ≤ c.imageIndex
  dup : x.late = false → c.duplicateIndex = 0
  erased : x.erased = c.fwUpgradeState.erased
  eraseFwd : x = .eraseFwd → c.fwUpgradeState = .eraseFwd
  onward : c.fwUpgradeState.phase ≤ x.phase

theorem Goes.edge {c : Cxt} {x : FwState} (h : Goes c x) : Edge c x where
  erased := h.erased
  eraseFwd := h.eraseFwd
  late := fun hl => .inr (h.late hl)
  format := by
    intro first format only
    have := h.full format first
    rcases only with rfl | rfl | rfl <;> cases this
  onward := h.onward

theorem Ctl.steer {s : St} {c : Cxt} {x : FwState} (ctl : Ctl s c) (goes : Goes c x)
    (bufLen bufOffset hidden : Nat) (config : Option (List UInt8))
    (buf : x = .processImage → 0 < bufLen) (ok : ∀ b, config = some b → ConfigOk b) :
    Ctl (s.withCxt { c with
      bufLen := bufLen, bufOffset := bufOffset, hiddenImagesCount := hidden, configBuf := config,
      fwUpgradeState := x }) { c with
      bufLen := bufLen, bufOffset := bufOffset, hiddenImagesCount := hidden, configBuf := config,
      fwUpgradeState := x } where
  init := ctl.init
  held := ctl.held
  first := goes.first
  fresh := ctl.fresh
  loose := goes.loose
  accepted := ctl.accepted
  image := fun hx => ⟨goes.image hx, buf hx⟩
  disconnect := goes.disconnect
  current := goes.current
  full := fun format first => ⟨(ctl.full format first).1, goes.full format first⟩
  count := ctl.count
  late := goes.late
  dup := goes.dup
  trial := by
    rintro (hx | hx)
    · exact ctl.trial (.inl (goes.eraseFwd hx))
    · exact ctl.trial (.inr (goes.erased.symm.trans hx))
  config := ok

/-- The session may go on in state `x`. -/
def CanGo (x : FwState) (s : St) (_ : List Event) : Prop :=
  ∃ c, s.cxt = some c ∧ Ctl s c ∧ Goes c x ∧ (x = .processImage → 0 < c.bufLen)

theorem setState_moves {x : FwState} :
    Sound (Move e retry) (CanGo x) (setState x) fun r s l => r = .ok () ∧ In x s l := by
  rintro s l ⟨c, hc, ctl, goes, buf⟩
  unfold setState
  simp only [updateCxt_run hc, List.append_nil]
  exact ⟨moves_tune hc rfl goes.edge, trivial, _, rfl, ctl.steer goes _ _ _ _ buf ctl.config, rfl⟩

/-- The session goes on in a state that is not `DUPLICATE_IMAGES`. -/
theorem In.left {α : Type} {x : FwState} (hx : x ≠ .duplicateImages) {s : St} {l : List Event}
    {r : Except Status α} (h : In x s l) : Left r s l := by
  obtain ⟨c, hc, ctl, rfl⟩ := h
  exact ⟨.of_ctl hc ctl, fun _ _ => .of_ne hc fun hn => absurd hn hx⟩

theorem setState_left {x : FwState} (hx : x ≠ .duplicateImages) :
    Sound (Move e retry) (CanGo x) (setState x) Left :=
  setState_moves.post fun _ _ _ h => h.2.left hx

theorem In.good {x : FwState} {s : St} {l : List Event} (h : In x s l) : Good s := by
  obtain ⟨c, hc, ctl, -⟩ := h
  exact .of_ctl hc ctl

theorem goes_early {s : St} {c : Cxt} {x y : FwState} (ctl : Ctl s c) (hx : c.fwUpgradeState = x)
    (early : x.early = true) (holds : y.holds = true ∨ c.partitionHdl = none)
    (not : y ≠ .processImage ∧ y ≠ .disconnectServer ∧ y.late = false)
    (erased : y.erased = x.erased) (ne : y ≠ .eraseFwd) : Goes c y := by
  have first : c.isFirst = true := ctl.first (hx ▸ early)
  have notLate : c.fwUpgradeState.late = false := by
    rw [hx]
    revert early
    cases x <;> simp [FwState.early, FwState.late]
  refine ⟨fun _ => first, ?_, fun h => absurd h not.1, fun h => absurd h not.2.1, ?_, ?_, ?_,
    fun _ => ctl.dup notLate, erased.trans (by rw [hx]), fun h => absurd h ne, ?_⟩
  · intro h _
    rcases holds with h' | h'
    · rw [h] at h'; cases h'
    · exact h'
  · intro h; rw [first] at h; cases h
  · intro _ h; rw [first] at h; cases h
  · intro h; rw [not.2.2] at h; cases h
  · rw [hx]
    revert early
    cases x <;> simp [FwState.early, FwState.phase]

end moves

end Qapp.Fw
