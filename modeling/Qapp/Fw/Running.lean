import Qapp.Fw.Decoding
import Qapp.Fw.Track

/-!
# The running firmware

Upload, state-write and erase requests in any order, and what keeps the running
firmware bootable: the erased slot is another one, the acceptance retires another
one, and the uploads keep to their areas.
-/

namespace Qapp.Fw
open ByteMem Traced
open Relation (ReflTransGen)

variable {e : Env} {s t s₀ s₁ : St} {l : List Event} {f : Nat}

/-! ## The table without its rank -/

/-- `x` is in table `f`, outside the rank. -/
def InTable (f x : Nat) : Prop :=
  InFwd f x ∧ (x < fwdAddr f + FwdInfo.offset .rank ∨
    fwdAddr f + FwdInfo.offset .rank + FwdInfo.size .rank ≤ x)

/-- Apart from the rank, table `f` is the same. -/
def SameTable (f : Nat) (m m' : Mem) : Prop := ∀ x, InTable f x → m' x = m x

section SameTable
variable {m m' m'' : Mem} {id : Nat} {client : Client}

theorem SameTable.refl (f : Nat) (m : Mem) : SameTable f m m := fun _ _ => rfl

theorem SameTable.symm (h : SameTable f m m') : SameTable f m' m := fun x hx => (h x hx).symm

theorem SameTable.trans (h : SameTable f m m') (h' : SameTable f m' m'') : SameTable f m m'' :=
  fun x hx => (h' x hx).trans (h x hx)

theorem SameTable.of_block (h : ∀ x, InFwd f x → m' x = m x) : SameTable f m m' :=
  fun x hx => h x hx.1

theorem SameTable.field (h : SameTable f m m') {info : FwdInfo} (ne : info ≠ .rank) :
    fwdField m' f info = fwdField m f info := by
  apply fwdField_congr
  intro x lo hi
  have inside := info.in_block
  apply h
  refine ⟨⟨by omega, by unfold blockSize; omega⟩, ?_⟩
  rcases FwdInfo.apart ne with before | behind
  · left; omega
  · right; omega

theorem SameTable.bootable (h : SameTable f m m') : bootableAt m' f = bootableAt m f := by
  unfold bootableAt
  rw [h.field (by decide), h.field (by decide), h.field (by decide)]

theorem SameTable.entry (h : SameTable f m m') {i : Nat} (lt : i < maxImages) :
    fwdEntry m' f i = fwdEntry m f i := by
  have fields : ∀ k, k ≤ 12 → word m' (entryAddr f i + k) = word m (entryAddr f i + k) := by
    intro k hk
    apply word_congr
    intro x lo hi
    unfold entryAddr at lo hi
    unfold maxImages at lt
    refine h x ⟨⟨by omega, by unfold blockSize; omega⟩, .inr ?_⟩
    simp only [FwdInfo.offset, FwdInfo.size]
    omega
  have first := fields 0 (by omega)
  rw [Nat.add_zero] at first
  unfold fwdEntry
  rw [first, fields 4 (by omega), fields 8 (by omega), fields 12 (by omega)]

theorem SameTable.lookup (h : SameTable f m m') (found : Lookup m f id client) :
    Lookup m' f id client := by
  obtain ⟨lt, i, entry, rfl⟩ := found
  have same : entryOf m' f id = entryOf m f id := by
    unfold entryOf
    apply List.find?_congr
    intro j hj
    rw [h.entry (List.mem_range.mp hj)]
  refine ⟨lt, i, same.trans entry, ?_⟩
  rw [h.entry (entryOf_some entry).1]

end SameTable

/-! ## What the other handlers leave to a session -/

/-- An operation keeps away from table `f`, except for its rank. -/
def Op.Avoids (op : Op) (f : Nat) : Prop :=
  ∃ a n, op.flashRange = some (a, n) ∧ ∀ x, InTable f x → x < a ∨ a + n ≤ x

/-- The states differ only in flash, and not in table `f`. -/
structure Aside (f : Nat) (s t : St) : Prop where
  table : SameTable f s.flash t.flash
  rram : t.rram = s.rram
  cxt : t.cxt = s.cxt
  imageHdr : t.imageHdr = s.imageHdr
  part : s.cxt ≠ none → t.partition = s.partition
  init : s.fuInitialized = true → t.fuInitialized = true

namespace Aside
variable {u : St}

theorem trans (h : Aside f s t) (h' : Aside f t u) : Aside f s u where
  table := h.table.trans h'.table
  rram := h'.rram.trans h.rram
  cxt := h'.cxt.trans h.cxt
  imageHdr := h'.imageHdr.trans h.imageHdr
  part := fun open_ => (h'.part (by rwa [h.cxt])).trans (h.part open_)
  init := fun init => h'.init (h.init init)

theorem of_quiet (q : Quiet s t) : Aside f s t where
  table := by
    rw [q.flash]
    exact .refl f _
  rram := q.rram
  cxt := q.cxt
  imageHdr := q.imageHdr
  part := fun _ => q.partition
  init := fun init => (q.init init).1

theorem refl (s : St) : Aside f s s := .of_quiet (.refl s)

theorem of_ran {op : Op} {out : Outcome} (ran : Ran s op out t) (avoids : op.Avoids f) :
    Aside f s t where
  table := by
    obtain ⟨a, n, range, apart⟩ := avoids
    intro x hx
    rw [ran.same.1]
    refine Op.run_flash (fun b k eq => ?_) out s
    cases range.symm.trans eq
    exact apart x hx
  rram := by
    obtain ⟨a, n, range, -⟩ := avoids
    rw [ran.same.2]
    cases op with
    | erase => cases out <;> rfl
    | write => cases out <;> rfl
    | rramWrite => cases range
  cxt := ran.cxt
  imageHdr := ran.imageHdr
  part := fun _ => ran.partition
  init := fun init => ran.init.trans init

end Aside

theorem init_aside (good : Good s) : ∃ r t l, init e s = ⟨r, t, l⟩ ∧ Aside f s t ∧
    (r = .ok () → t.fuInitialized = true) := by
  cases initialized : s.fuInitialized with
  | true =>
    rw [init_ready initialized]
    exact ⟨_, s, [], rfl, .refl s, fun _ => initialized⟩
  | false =>
    have never : s.fuInitialized ≠ true := by simp [initialized]
    obtain ⟨r, t, l, run, spares, ready⟩ := init_cases e fun init => absurd init never
    refine ⟨r, t, l, run, ?_, fun ok => (ready ok).init⟩
    constructor
    case table =>
      rw [spares.flash]
      exact .refl f _
    case rram => exact spares.rram
    case cxt => exact spares.cxt
    case imageHdr => exact spares.imageHdr
    case part =>
      -- a session would have initialized the module
      intro open_
      obtain ⟨c, hc⟩ := Option.ne_none_iff_exists'.mp open_
      exact absurd (good c hc).init never
    case init => exact fun init => absurd init never

theorem Aside.good (aside : Aside f s t) (good : Good s) : Good t := by
  intro c hc
  rw [aside.cxt] at hc
  have ctl := good c hc
  exact ctl.congr hc (aside.init ctl.init) aside.cxt aside.imageHdr
    (aside.part (by rw [hc]; exact Option.some_ne_none c))

/-! ## Erasing a slot -/

theorem erase_avoids {i : Nat} (ne : i ≠ f) : (Op.erase (fwdAddr i) blockSize).Avoids f := by
  refine ⟨_, _, rfl, fun x hx => ?_⟩
  have block := hx.1
  unfold InFwd fwdAddr blockSize at *
  omega

theorem eraseFwd_aside {i : Nat} (ne : i ≠ f) (init : s.fuInitialized = true) :
    Aside f s (eraseFwd e i s).state := by
  unfold eraseFwd
  rw [Act.bind_run, validation_run, if_pos init, Act.andThen_ok, Act.ite_run]
  split
  · exact .refl s
  · rename_i lt
    obtain ⟨out, t, run, possible, ran⟩ := flashErase_cases e (.fwd i) i 1 s
    rw [run]
    refine .of_ran ran ?_
    have block : i * blockSize % 2 ^ 32 = fwdAddr i ∧ 1 * blockSize % 2 ^ 32 = blockSize := by
      unfold maxFwd at lt
      unfold fwdAddr blockSize
      omega
    rw [block.1, block.2]
    exact erase_avoids ne

/-- The slot that `erase` takes. -/
def erasedSlot (r : EraseRequest) : Nat :=
  if r.rc = 0 ∨ r.decoded = 0 then defaultSlot else r.vars

/-- An erase request that is handled in `s` erases FWD `i`. -/
structure Erases (e : Env) (s : St) (r : EraseRequest) (i : Nat) : Prop where
  slot : erasedSlot r = i
  lt : i < s.fwdSupportNum
  init : (init e s).res = .ok ()

theorem erase_aside {fits : Bool} {r : EraseRequest} (good : Good s) (stays : ¬Erases e s r f) :
    Aside f s (erase e fits r s).state := by
  obtain ⟨res, t, l, run, aside, initialized⟩ := @init_aside e s f good
  have slot : erase e fits r s = eraseSlot e fits (erasedSlot r) s := by
    unfold erase erasedSlot
    simp
  rw [slot]
  unfold eraseSlot
  rw [Act.bind_ok (Act.read_run s), Act.ite_run]
  split
  · exact .refl s
  · rename_i lt
    rw [Act.attempt_bind_run run]
    cases res with
    | error err => exact aside
    | ok _ =>
      have ne : erasedSlot r ≠ f := by
        intro eq
        exact stays ⟨eq, eq ▸ Nat.not_le.mp lt, by rw [run]⟩
      have erased := eraseFwd_aside (e := e) ne (initialized rfl)
      simp only [Act.bind_run, Act.attempt, Act.andThen_ok]
      cases (eraseFwd e (erasedSlot r) t).res <;> exact aside.trans erased

/-! ## Confirming -/

/-- Accepting in `s` sets the status of FWD `i` to INVALID. -/
structure Retires (s : St) (garbage i : Nat) : Prop where
  offered : Offered s garbage
  counted : s.fwdSupportNum = 2 ∨
    s.fwdSupportNum = 3 ∧ (scan s.flash s.fwdSupportNum).current ≠ 0
  current : (scan s.flash s.fwdSupportNum).current = i

theorem field_avoids {i : Nat} {info : FwdInfo} {v : Nat} (other : i ≠ f ∨ info = .rank) :
    (Op.write (fwdAddr i + info.offset) (leBytes info.size v)).Avoids f := by
  refine ⟨_, _, rfl, fun x hx => ?_⟩
  obtain ⟨block, apart⟩ := hx
  have inside := info.in_block
  rw [length_leBytes]
  rcases other with ne | rfl
  · unfold InFwd fwdAddr blockSize at *
    omega
  · by_cases same : i = f
    · rw [same]
      exact apart
    · unfold InFwd fwdAddr blockSize at *
      omega

theorem setFwdInfo_aside {i : Nat} {info : FwdInfo} {v : Nat} (lt : i < maxFwd)
    (other : i ≠ f ∨ info = .rank) (init : s.fuInitialized = true) :
    Aside f s (setFwdInfo e i info v s).state := by
  obtain ⟨out, t, run, -, ran⟩ := setFwdInfo_run e lt info v init
  rw [run]
  exact .of_ran ran (field_avoids other)

theorem acceptTrialFwd_aside {garbage : Nat} (init : s.fuInitialized = true)
    (stays : ¬Retires s garbage f) : Aside f s (acceptTrialFwd e garbage s).state := by
  obtain ⟨ok, a, t, run, reads, found⟩ := getTrialActiveFwdIndex_cases e init
  have read : Aside f s t := .of_quiet reads.quiet
  have init := read.init init
  unfold acceptTrialFwd
  rw [Act.bind_run, run, Act.andThen_ok]
  cases ok with
  | false => exact read
  | true =>
    obtain ⟨rfl, trial⟩ := found rfl
    simp only [if_true, Act.bind_run, Act.read_run, Act.andThen_ok, List.nil_append, reads.rram,
      reads.num, Act.ite_run]
    split
    · rename_i boot
      have offered : Offered s garbage := ⟨scan_trial_ne.mp trial, boot⟩
      have ranked : Aside f t (setFwdInfo e (scan s.flash s.fwdSupportNum).trial .rank
          (((scan s.flash s.fwdSupportNum).rank + 1) % 2 ^ 32) t).state :=
        setFwdInfo_aside (scanned_lt (scan_trial_mem trial).1) (.inr rfl) init
      unfold Out.andThen
      split
      · split
        · rename_i retire
          exact (read.trans ranked).trans (setFwdInfo_aside (scan_current_lt _ _)
            (.inl fun eq => stays ⟨offered, retire, eq⟩) (ranked.init init))
        · exact read.trans ranked
      · exact read.trans ranked
    · exact read

theorem sessionDone_aside {garbage : Nat} (good : Good s)
    (stays : (init e s).res = .ok () → ¬Retires (init e s).state garbage f) :
    Aside f s (sessionDone e garbage true s).state := by
  obtain ⟨r, t, l, run, aside, initialized⟩ := @init_aside e s f good
  rw [run] at stays
  unfold sessionDone
  cases r with
  | error err =>
    have failed : getTrialActiveFwdIndex e s = ⟨.ok (false, ⟨unused, 0, 0⟩), t, l⟩ := by
      unfold getTrialActiveFwdIndex
      simp [Act.attempt, run]
    rw [Act.bind_run, failed, Act.andThen_ok]
    exact aside
  | ok _ =>
    have init := initialized rfl
    obtain ⟨ok, a, u, scanned, reads, -⟩ := getTrialActiveFwdIndex_cases e init
    have read : Aside f s u := aside.trans (.of_quiet reads.quiet)
    rw [Act.bind_run, getTrialActiveFwdIndex_init run init, scanned, Act.andThen_ok]
    cases ok with
    | false => exact read
    | true =>
      have kept : ¬Retires u garbage f := by
        rintro ⟨⟨trial, boot⟩, counted, current⟩
        rw [reads.flash, reads.num] at *
        rw [reads.rram] at boot
        exact stays rfl ⟨⟨trial, boot⟩, counted, current⟩
      exact read.trans (acceptTrialFwd_aside (reads.init.trans init) kept)

/-- A state-write request that is handled in `s` retires FWD `i`. -/
structure Confirms (e : Env) (s : St) (garbage : Nat) (r : StateWriteRequest) (i : Nat) : Prop where
  refused : r.rc ≠ 0
  confirm : r.vars = true
  init : (init e s).res = .ok ()
  retires : Retires (Fw.init e s).state garbage i

theorem stateWrite_aside {garbage : Nat} {fits : Bool} {r : StateWriteRequest} (good : Good s)
    (stays : ¬Confirms e s garbage r f) :
    Aside f s (stateWrite e garbage fits r s).state := by
  unfold stateWrite confirmImage
  by_cases rc : r.rc = 0
  · simp only [rc, ne_eq, not_true_eq_false, decide_false, Bool.not_false, if_true]
    exact .refl s
  · cases confirm : r.vars with
    | false =>
      simp only [rc, ne_eq, not_false_eq_true, decide_true, Bool.not_true, Bool.false_eq_true,
        if_false]
      exact .refl s
    | true =>
      have done : Aside f s (sessionDone e garbage true s).state :=
        sessionDone_aside good fun init retires => stays ⟨rc, confirm, init, retires⟩
      simp only [rc, ne_eq, not_false_eq_true, decide_true, Bool.not_true, Bool.false_eq_true,
        if_false, if_true, Act.bind_run, Act.attempt, Act.andThen_ok]
      cases (sessionDone e garbage true s).res <;> exact done

/-! ## A session does not notice -/

/-- The state with another flash. -/
def St.withFlash (s : St) (m : Mem) : St := { s with flash := m }

section withFlash
variable {m : Mem} {c : Cxt} {client : Client} {id start : Nat} {op : Op} {r : ImageHdr}
  {raw hdrs : List ImageHdr} {a : EntrySums}

theorem InArea.withFlash (same : SameTable (activeFwd s₀.rram) s₀.flash m)
    (h : InArea s₀ l id op) : InArea (s₀.withFlash m) l id op := by
  unfold InArea at *
  by_cases fs1 : id = fs1ImgId
  · rw [if_pos fs1] at h ⊢
    obtain ⟨fs2, found, inside⟩ := h
    exact ⟨fs2, same.lookup found, inside⟩
  · rw [if_neg fs1] at h ⊢
    exact h

theorem Reserved.withFlash (same : SameTable (activeFwd s₀.rram) s₀.flash m)
    (h : Reserved s₀ l op) : Reserved (s₀.withFlash m) l op := by
  rcases h with block | region | ⟨id, client, which, found, inside⟩ | rram
  · exact .inl block
  · exact .inr (.inl region)
  · exact .inr (.inr (.inl ⟨id, client, which, same.lookup found, inside⟩))
  · exact .inr (.inr (.inr rram))

theorem Sits.withFlash (same : SameTable (activeFwd s₀.rram) s₀.flash m)
    (h : Sits s₀ c r client) : Sits (s₀.withFlash m) c r client := by
  refine { h with fs1 := fun fs1 => ?_ }
  obtain ⟨fs2, found, rest⟩ := h.fs1 fs1
  exact ⟨fs2, same.lookup found, rest⟩

theorem Loaded.withFlash (same : SameTable (activeFwd s₀.rram) s₀.flash m)
    (h : Loaded s₀ s c l start raw hdrs a) : Loaded (s₀.withFlash m) s c l start raw hdrs a := by
  refine { h with current := fun lt client part => ?_, copying := fun le client part => ?_ }
  · obtain ⟨r, hr, flag, length, sits⟩ := h.current lt client part
    exact ⟨r, hr, flag, length, sits.withFlash same⟩
  · obtain ⟨r, hr, flag, special, sits⟩ := h.copying le client part
    exact ⟨r, hr, flag, special, sits.withFlash same⟩

theorem TrackAt.withFlash (same : SameTable (activeFwd s₀.rram) s₀.flash m)
    (h : TrackAt s₀ s c l) : TrackAt (s₀.withFlash m) s c l := by
  refine ⟨h.fdt, h.other, h.early, fun first => ?_⟩
  obtain ⟨erased, start, size, raw, hdrs, a, selected, loaded⟩ := h.loaded first
  exact ⟨erased, start, size, raw, hdrs, a, selected, loaded.withFlash same⟩

theorem Proper.withFlash (same : SameTable (activeFwd s₀.rram) s₀.flash m)
    (h : Proper e s₀ l) : Proper e (s₀.withFlash m) l where
  laid := ⟨fun id client which found => h.laid.parts id client which (same.symm.lookup found),
    h.laid.slot⟩
  region := h.region
  fits := h.fits

end withFlash

/-- The table the session began with, as it is now. -/
theorem Track.table_now (track : Track s₀ s l) (running : activeFwd s₀.rram < maxFwd) :
    SameTable (activeFwd s₀.rram) s₀.flash s.flash := .of_block (track.table running)

/-- What the other handlers do makes no difference to a session. -/
theorem Track.aside (track : Track s₀ s l) (running : activeFwd s₀.rram < maxFwd)
    (aside : Aside (activeFwd s₀.rram) s t) : Track (s₀.withFlash t.flash) t l := by
  have same := (track.table_now running).trans aside.table
  refine ⟨fun _ x _ => rfl, fun c hc => ?_, fun i client offset op out mem => ?_,
    fun who op out mem => ?_⟩
  · rw [aside.cxt] at hc
    have here := (track.cxt c hc).same (List.Subset.refl l)
      (fun _ x _ => by rw [aside.rram]) aside.imageHdr
      (aside.part (by rw [hc]; exact Option.some_ne_none c))
    exact here.withFlash same
  · exact (track.images i client offset op out mem).withFlash same
  · exact (track.ops who op out mem).withFlash same

/-! ## Requests -/

/-- The memory an upload request comes with. -/
structure Surroundings where
  behind : Mem
  null : Mem
  addr : Nat
  wild : Nat → ImageHdr

def Surroundings.packet (around : Surroundings) (offset : Nat) (data : List UInt8) : Packet where
  offset := offset
  len := data.length
  data := fun x => data.getD x (around.behind x)
  null := around.null
  addr := around.addr
  wild := around.wild

/-- The state of the module, the state in which the last session was started, and the events
of the session since then. -/
structure Progress where
  start : St
  state : St
  events : List Event

/-- `fw_upgrade_session_process` as the upload handler calls it. -/
def Progress.pass (e : Env) (fuel : Nat) (around : Surroundings) (offset : Nat)
    (data : List UInt8) (x : Progress) : Option Status × Progress :=
  let out := sessionProcess e fuel (around.packet offset data) x.state
  (match out.res with
    | .ok _ => none
    | .error err => some err,
   if offset = 0 then ⟨x.state, out.state, out.trace⟩
   else ⟨x.start, out.state, x.events ++ out.trace⟩)

/-- A request, with what is not determined by the state. -/
inductive Request
  | upload (fits : Bool) (r : UploadRequest) (fuel : Nat) (around : Surroundings)
  | stateWrite (garbage : Nat) (fits : Bool) (r : StateWriteRequest)
  | erase (fits : Bool) (r : EraseRequest)

def Server.withState (sv : Server Progress) (s : St) : Server Progress :=
  { sv with session := { sv.session with state := s } }

def Request.serve (e : Env) (sv : Server Progress) : Request → Server Progress
  | .upload fits r fuel around => (Fw.upload (Progress.pass e fuel around) fits r sv).server
  | .stateWrite garbage fits r =>
    sv.withState (Fw.stateWrite e garbage fits r sv.session.state).state
  | .erase fits r => sv.withState (Fw.erase e fits r sv.session.state).state

def serve (e : Env) (rs : List Request) (sv : Server Progress) : Server Progress :=
  rs.foldl (Request.serve e) sv

/-- A call for data at `offset`, while FWD `f` is running: a session begins only while the
descriptor table names `f`, it is not continued after a copy of images that has failed, and
its header fits. -/
structure Harmless (e : Env) (f fuel : Nat) (around : Surroundings) (offset : Nat)
    (data : List UInt8) (x : Progress) : Prop where
  active : offset = 0 → activeFwd x.state.rram = f
  fresh : Fresh x.state (around.packet offset data)
  proper : Proper e (x.pass e fuel around offset data).2.start
    (x.pass e fuel around offset data).2.events

/-- The condition on a request. -/
def Request.Spares (e : Env) (f : Nat) (sv : Server Progress) : Request → Prop
  | .upload fits r fuel around => ∀ call,
    (Fw.upload (Progress.pass e fuel around) fits r sv).call = some call →
      Harmless e f fuel around call.offset call.data sv.session
  | .stateWrite garbage _ r => ¬Confirms e sv.session.state garbage r f
  | .erase _ r => ¬Erases e sv.session.state r f

/-- Every request meets its condition when it is handled. -/
def AllSpare (e : Env) (f : Nat) : List Request → Server Progress → Prop
  | [], _ => True
  | r :: rs, sv => r.Spares e f sv ∧ AllSpare e f rs (r.serve e sv)

theorem passData_call {σ : Type} {process : Nat → List UInt8 → σ → Option Status × σ}
    {fits : Bool} {offset sent : Nat} {data : List UInt8} {sv : Server σ} {call : Call}
    (h : (passData process fits offset data sent sv).call = some call) :
    call.offset = offset ∧ call.data = data := by
  unfold passData at h
  cases passed : process offset data sv.session with
  | mk result session =>
    rw [passed] at h
    cases result <;> cases h <;> exact ⟨rfl, rfl⟩

/-- An upload request passes data to the session at most once. -/
theorem upload_session {σ : Type} (process : Nat → List UInt8 → σ → Option Status × σ)
    (fits : Bool) (r : UploadRequest) (sv : Server σ) :
    (upload process fits r sv).server.session = sv.session ∨
      ∃ call, (upload process fits r sv).call = some call ∧
        (upload process fits r sv).server.session =
          (process call.offset call.data sv.session).2 := by
  have passes : ∀ (offset sent : Nat) (data : List UInt8) (sv : Server σ),
      ∃ call, (passData process fits offset data sent sv).call = some call ∧
        (passData process fits offset data sent sv).server.session =
          (process call.offset call.data sv.session).2 := by
    intro offset sent data sv
    unfold passData
    cases passed : process offset data sv.session with
    | mk result session => cases result <;> exact ⟨_, rfl, by simp only [passed]⟩
  unfold upload
  split
  · unfold uploadSegment
    have session : (if r.vars.off = 0 then { sv with offset := 0 } else sv).session =
        sv.session := by
      split <;> rfl
    generalize (if r.vars.off = 0 then { sv with offset := 0 } else sv) = here at session ⊢
    rw [← session]
    dsimp only
    split
    · split
      · exact .inl rfl
      · split
        · exact .inr (passes ..)
        · exact .inl rfl
    · split
      · exact .inl rfl
      · split
        · exact .inr (passes ..)
        · exact .inl rfl
  · exact .inl rfl

/-! ## The invariant -/

/-- FWD `f` was running and bootable when the last session began, and the session has kept to
its areas. -/
structure KeepsRunning (f : Nat) (x : Progress) : Prop where
  good : Good x.state
  active : activeFwd x.start.rram = f
  boots : bootableAt x.start.flash f = true
  track : ∃ m, SameTable f x.start.flash m ∧ Track (x.start.withFlash m) x.state x.events

namespace KeepsRunning
variable {x : Progress}

theorem table (kept : KeepsRunning f x) (lt : f < maxFwd) :
    SameTable f x.start.flash x.state.flash := by
  obtain ⟨m, same, track⟩ := kept.track
  have now : SameTable f m x.state.flash := by
    have := track.table_now (kept.active ▸ lt)
    rwa [show activeFwd (x.start.withFlash m).rram = f from kept.active] at this
  exact same.trans now

theorem bootable (kept : KeepsRunning f x) (lt : f < maxFwd) :
    bootableAt x.state.flash f = true := (kept.table lt).bootable.trans kept.boots

theorem begin (none : s.cxt = none) (active : activeFwd s.rram = f)
    (boots : bootableAt s.flash f = true) : KeepsRunning f ⟨s, s, []⟩ where
  good := by
    intro c hc
    cases none.symm.trans hc
  active := active
  boots := boots
  track := by
    refine ⟨s.flash, .refl f _, .still (.refl s) (fun who op out mem => ?_) fun c hc => ?_⟩
    · cases mem
    · cases none.symm.trans hc

/-- A request that is not an upload. -/
theorem aside (kept : KeepsRunning f x) (lt : f < maxFwd) (h : Aside f x.state t) :
    KeepsRunning f { x with state := t } where
  good := h.good kept.good
  active := kept.active
  boots := kept.boots
  track := by
    obtain ⟨m, same, track⟩ := kept.track
    have named : activeFwd (x.start.withFlash m).rram = f := kept.active
    refine ⟨t.flash, (kept.table lt).trans h.table, ?_⟩
    exact track.aside (named ▸ lt) (named ▸ h)

/-- Data for the session. -/
theorem pass (kept : KeepsRunning f x) (lt : f < maxFwd) {fuel offset : Nat}
    {around : Surroundings} {data : List UInt8}
    (harmless : Harmless e f fuel around offset data x) :
    KeepsRunning f (x.pass e fuel around offset data).2 := by
  have good : Good (sessionProcess e fuel (around.packet offset data) x.state).state :=
    kept.good.call fuel _
  have proper := harmless.proper
  unfold Progress.pass at proper ⊢
  by_cases first : offset = 0
  · simp only [first, if_true] at proper ⊢
    have since : Since e false x.state
        (sessionProcess e fuel (around.packet 0 data) x.state).state
        (sessionProcess e fuel (around.packet 0 data) x.state).trace :=
      .restart fuel (by rfl) x.state
    exact ⟨first ▸ good, harmless.active first, kept.bootable lt, x.state.flash, .refl f _,
      since.track proper⟩
  · simp only [first, if_false] at proper ⊢
    obtain ⟨m, same, track⟩ := kept.track
    have enterable : Enterable false x.state x.events :=
      ⟨kept.good, harmless.fresh.imp_left fun zero => absurd zero first⟩
    have late : Late x.state := fun c hc => (kept.good c hc).late
    refine ⟨good, kept.active, kept.boots, m, same, ?_⟩
    refine track_of_moves (sessionProcess_moves enterable fuel ?_) late
      (proper.withFlash ?_) track
    · exact first
    · rw [kept.active]
      exact same

theorem serve {sv : Server Progress} {r : Request} (kept : KeepsRunning f sv.session)
    (lt : f < maxFwd) (spares : r.Spares e f sv) : KeepsRunning f (r.serve e sv).session := by
  cases r with
  | upload fits r fuel around =>
    rcases upload_session (Progress.pass e fuel around) fits r sv with same | ⟨call, called, eq⟩
    · exact same ▸ kept
    · have next := kept.pass lt (spares call called)
      exact eq ▸ next
  | stateWrite garbage fits r => exact kept.aside lt (stateWrite_aside kept.good spares)
  | erase fits r => exact kept.aside lt (erase_aside kept.good spares)

end KeepsRunning

/-- From a state without a session, requests that meet their conditions leave the running
firmware bootable, each of them. -/
theorem running_stays_bootable {rs : List Request} {offset : Nat} (lt : f < maxFwd)
    (none : s.cxt = none) (active : activeFwd s.rram = f) (boots : bootableAt s.flash f = true)
    (spare : AllSpare e f rs ⟨⟨s, s, []⟩, offset⟩) :
    ∀ before after, rs = before ++ after →
      bootableAt (serve e before ⟨⟨s, s, []⟩, offset⟩).session.state.flash f = true := by
  have run : ∀ (before after : List Request) (sv : Server Progress), KeepsRunning f sv.session →
      AllSpare e f (before ++ after) sv → KeepsRunning f (serve e before sv).session := by
    intro before after
    induction before with
    | nil => exact fun sv kept _ => kept
    | cons r before ih =>
      intro sv kept spare
      obtain ⟨here, rest⟩ := spare
      exact ih _ (kept.serve lt here) rest
  rintro before after rfl
  exact (run before after _ (.begin none active boots) spare).bootable lt

/-- A segment at offset 0 is passed on as it is. -/
theorem upload_first {σ : Type} {process : Nat → List UInt8 → σ → Option Status × σ}
    {fits : Bool} {r : UploadRequest} {sv : Server σ} {call : Call} (decoded : r.rc = 0)
    (off : r.vars.off = 0) (ne : r.vars.data ≠ [])
    (h : (upload process fits r sv).call = some call) :
    call.offset = 0 ∧ call.data = r.vars.data := by
  have pos := List.length_pos_iff.mpr ne
  unfold upload uploadSegment at h
  simp only [decoded, off, if_true, Nat.lt_irrefl, if_false, pos] at h
  exact passData_call h

/-- A whole upload, an erase request without a slot, and a confirmation. -/
def plainRequests : List Request :=
  [.upload true (.ok 2 ⟨0, plainUpload⟩) 40
      ⟨fun _ => 0, fun _ => 0, 0, fun _ => ⟨0, 0, 0, 0, 0, 0, []⟩⟩,
    .erase true (.ok 0 0), .stateWrite 0 true (.ok 1 true)]

theorem plainRequests_spare : AllSpare plainEnv 0 plainRequests ⟨⟨plainDevice, plainDevice, []⟩, 0⟩ := by
  refine ⟨?_, ?_, ?_, trivial⟩
  · intro call called
    obtain ⟨zero, data⟩ := upload_first rfl rfl (List.cons_ne_nil _ _) called
    rw [zero, data]
    refine ⟨fun _ => ?_, .inl rfl, plainRun_proper⟩
    decide
  · rintro ⟨slot, -, -⟩
    cases slot
  · rintro ⟨refused, -, -, -⟩
    exact refused rfl

theorem plainRequests_bootable : bootableAt
    (serve plainEnv plainRequests ⟨⟨plainDevice, plainDevice, []⟩, 0⟩).session.state.flash 0 =
      true :=
  running_stays_bootable (by decide) rfl (by decide) (by decide)
    plainRequests_spare plainRequests [] rfl

/-- FWD 1 runs, and the module is initialized. -/
def upperDevice : St := { swappedDevice with fuInitialized := true, fwdSupportNum := 2 }

/-- An erase request without a slot erases the running FWD 1, and a confirmation retires the
running trial when no other firmware is bootable. -/
theorem running_bricked :
    (activeFwd upperDevice.rram = 1 ∧ bootableAt upperDevice.flash 1 = true ∧
      bootableAt (serve plainEnv [.erase true ⟨0, Int.le_refl 0, 0, 0⟩]
        ⟨⟨upperDevice, upperDevice, []⟩, 0⟩).session.state.flash 1 = false) ∧
    activeFwd loneTrial.rram = 0 ∧ bootableAt loneTrial.flash 0 = true ∧
      bootableAt (serve smallEnv [.stateWrite 0 true ⟨-1, by decide, 1, true⟩]
        ⟨⟨loneTrial, loneTrial, []⟩, 0⟩).session.state.flash 0 = false := by
  decide

end Qapp.Fw
