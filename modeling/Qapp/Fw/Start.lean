import Mathlib.Algebra.Ring.Int.Defs
import Qapp.Fw.Calls

/-!
# The start of a session

On an error `fw_upgrade_session_init` gives back what it has allocated and what the session
before it had. Two of its error paths clean up through a context that is not there.
-/

namespace Qapp.Fw
open ByteMem Traced

/-! ## Accounts -/

/-- What an event adds to the allocated blocks of one kind. -/
def Event.adds (b : Block) : Event → Int
  | .note (.alloc b') => if b' = b then 1 else 0
  | .note (.free b') => if b' = b then -1 else 0
  | _ => 0

def balance (b : Block) (l : List Event) : Int := (l.map (Event.adds b)).sum

/-- How many blocks of a kind the state holds. -/
def St.blocks (s : St) : Block → Nat
  | .memParams => s.memParams.toNat
  | .context | .tmpBuffer | .digest => s.cxt.isSome.toNat
  | .config => (s.cxt.bind Cxt.configBuf).isSome.toNat
  | .imageHdr => s.imageHdr.isSome.toNat
  | .hashBuf | .blockBuf | .aligned => 0

@[simp] theorem balance_append (b : Block) (l k : List Event) :
    balance b (l ++ k) = balance b l + balance b k := by
  unfold balance
  rw [List.map_append, List.sum_append]

/-- No session is left, and the blocks that `s` held and those of the events have been given back.
`fw_upgrade_init` keeps its parameters for the next time. -/
structure Ended (s t : St) (l : List Event) : Prop where
  gone : t.cxt = none
  released : ∀ b, b ≠ .memParams → t.blocks b = 0 ∧ s.blocks b + balance b l = 0
  closed : ∀ c k, s.cxt = some c → c.partitionHdl = some k → (t.handles k).refCount = 0

/-- NOT_START with all counters zero and all images to be downloaded. -/
structure AtStart (c : Cxt) : Prop where
  state : c.fwUpgradeState = .notStart
  buffer : c.bufLen = 0 ∧ c.bufOffset = 0
  image : c.imageIndex = 0 ∧ c.imageWrtCount = 0 ∧ c.imageWrtLength = 0
  images : c.totalImages = 0 ∧ c.hiddenImagesCount = 0
  flags : ∀ i, i < maxImages → c.downloadFlag i = true

theorem freshCxt_atStart : AtStart freshCxt :=
  ⟨rfl, ⟨rfl, rfl⟩, ⟨rfl, rfl, rfl⟩, ⟨rfl, rfl⟩, fun _ _ => rfl⟩

/-- What is said of a call of `fw_upgrade_session_init`. -/
structure StartsWell (e : Env) (s : St) : Prop where
  no_null : .note .nullContext ∉ (sessionInit e s).trace
  failed : ∀ err, (sessionInit e s).res = .error err →
    Ended s (sessionInit e s).state (sessionInit e s).trace
  started : (sessionInit e s).res = .ok () →
    ∃ c, (sessionInit e s).state.cxt = some c ∧ AtStart c

/-! ## Initialization -/

/-- Two or three firmwares are set up: the table names a golden one, or FWD 0 can be read. -/
def Supported (e : Env) (s : St) : Prop :=
  fdtValid s.rram = true ∧
    ((∃ i, findFde s.rram (fun i => fdeId s.rram i == fdeIdApp &&
      fdeRank s.rram i == fdeRankGolden) = some i) ∨
      fwdAddr 0 + 512 ≤ e.memSize ∧ s.readFault = none)

/-- `fw_upgrade_init` has succeeded or does now. -/
def CanInit (e : Env) (s : St) : Prop :=
  s.fuInitialized = true ∨ e.flashReady = true ∧
    (s.memParams = true ∨ s.oom.headD false = false) ∧ Supported e s

/-- The allocations to come after `fw_upgrade_init`. -/
def oomAfterInit (s : St) : List Bool :=
  if s.fuInitialized = true ∨ s.memParams = true then s.oom else s.oom.tail

theorem getPartitionBaseOnGolden_supported (e : Env) (s : St) :
    ∃ n t, getPartitionBaseOnGolden e s = ⟨.ok n, t, []⟩ ∧ Reads s t ∧
      ((n = 2 ∨ n = 3) ↔ Supported e s) := by
  unfold getPartitionBaseOnGolden
  simp only [Act.bind_run, Act.read_run, Act.andThen_ok, Act.ite_run, List.nil_append]
  unfold Supported
  split
  next valid =>
    cases found : findFde s.rram fun i => fdeId s.rram i == fdeIdApp &&
        fdeRank s.rram i == fdeRankGolden with
    | some i => exact ⟨3, s, rfl, .refl s, iff_of_true (.inr rfl) ⟨valid, .inl ⟨i, rfl⟩⟩⟩
    | none =>
      by_cases inside : fwdAddr 0 + 512 ≤ e.memSize
      · obtain ⟨ok, m, run, read, -⟩ := flashRead_inside inside s
        simp only [Act.bind_run, run, Act.andThen_ok, List.nil_append, Act.ite_run]
        split
        next passed =>
          have supported : Supported e s := ⟨valid, .inr ⟨inside, read.mp passed⟩⟩
          unfold Supported at supported
          rw [found] at supported
          split
          · exact ⟨3, _, rfl, .pop s, iff_of_true (.inr rfl) supported⟩
          · exact ⟨2, _, rfl, .pop s, iff_of_true (.inl rfl) supported⟩
        next failed =>
          refine ⟨1, _, rfl, .pop s, iff_of_false (by decide) ?_⟩
          rintro ⟨-, ⟨i, golden⟩ | ⟨-, none⟩⟩
          · cases golden
          · exact failed (read.mpr none)
      · have outside : flashRead e (fwdAddr 0) 512 s = ⟨.ok (false, e.junk), s, []⟩ :=
          flashRead_outside (Nat.not_le.mp inside) s
        simp only [Act.bind_run, outside, Act.andThen_ok, List.nil_append]
        refine ⟨1, s, rfl, .refl s, iff_of_false (by decide) ?_⟩
        rintro ⟨-, ⟨i, golden⟩ | ⟨within, -⟩⟩
        · cases golden
        · exact inside within
  next invalid => exact ⟨1, s, rfl, .refl s, iff_of_false (by decide) fun both => invalid both.1⟩

/-- Only the parameters of `fw_upgrade_init` are asked for. -/
def ParamsOnly (l : List Event) : Prop :=
  ∀ w ∈ l, w = .note (.alloc .memParams) ∨ w = .note (.denied .memParams)

theorem ParamsOnly.nil : ParamsOnly [] := by
  rintro w ⟨⟩

theorem ParamsOnly.no_null {l : List Event} (only : ParamsOnly l) : .note .nullContext ∉ l := by
  intro mem
  obtain h | h := only _ mem <;> cases h

theorem ParamsOnly.no_null_append {l k : List Event} (only : ParamsOnly l)
    (no_null : .note .nullContext ∉ k) : .note .nullContext ∉ l ++ k := by
  intro mem
  obtain early | late := List.mem_append.mp mem
  · exact only.no_null early
  · exact no_null late

theorem ParamsOnly.balance {l : List Event} (only : ParamsOnly l) {b : Block}
    (ne : b ≠ .memParams) : balance b l = 0 := by
  induction l with
  | nil => rfl
  | cons w l ih =>
    have rest := ih fun v mem => only v (List.mem_cons_of_mem w mem)
    have nothing : w.adds b = 0 := by
      obtain rfl | rfl := only w List.mem_cons_self
      · exact if_neg ne.symm
      · rfl
    change w.adds b + Fw.balance b l = 0
    rw [nothing, rest, Int.zero_add]

theorem allocMemParams_exact (s : St) :
    ∃ r t l, allocMemParams s = ⟨r, t, l⟩ ∧ t = { s with oom := t.oom, memParams := t.memParams } ∧
      ParamsOnly l ∧ (r = .ok () ↔ s.memParams = true ∨ s.oom.headD false = false) ∧
      t.oom = if s.memParams = true then s.oom else s.oom.tail := by
  unfold allocMemParams
  rw [Act.bind_ok (Act.read_run s), Act.ite_run]
  split
  next there => exact ⟨_, s, [], rfl, rfl, .nil, iff_of_true rfl (.inl there), rfl⟩
  next absent =>
    unfold malloc
    simp only [Act.bind_run, Act.read_run, Act.andThen_ok, Act.update_run, Act.ite_run]
    cases denied : s.oom.headD false with
    | true =>
      refine ⟨_, _, _, rfl, rfl, ?_, iff_of_false (by rintro ⟨⟩) ?_, rfl⟩
      · rintro w (⟨⟩ | ⟨_, ⟨⟩⟩)
        exact .inr rfl
      · rintro (there | granted)
        · exact absent there
        · cases granted
    | false =>
      refine ⟨_, _, _, rfl, rfl, ?_, iff_of_true rfl (.inr rfl), rfl⟩
      rintro w (⟨⟩ | ⟨_, ⟨⟩⟩)
      exact .inl rfl

theorem init_exact (e : Env) (s : St) :
    ∃ r t l, init e s = ⟨r, t, l⟩ ∧ t.cxt = s.cxt ∧ t.imageHdr = s.imageHdr ∧ ParamsOnly l ∧
      (r = .ok () ↔ CanInit e s) ∧ (r = .ok () → t.oom = oomAfterInit s) := by
  unfold init CanInit oomAfterInit
  rw [Act.bind_ok (Act.read_run s), Act.ite_run]
  split
  next initialized =>
    exact ⟨_, s, [], rfl, rfl, rfl, .nil, iff_of_true rfl (.inl initialized),
      fun _ => (if_pos (.inl initialized)).symm⟩
  next uninitialized =>
    rw [Act.ite_run]
    split
    next unready =>
      refine ⟨_, s, [], rfl, rfl, rfl, .nil, iff_of_false (by rintro ⟨⟩) ?_, by rintro ⟨⟩⟩
      rintro (initialized | ⟨ready, -⟩)
      · exact uninitialized initialized
      · rw [ready] at unready
        cases unready
    next ready =>
      obtain ⟨r, t, l, run, same, only, granted, left⟩ := allocMemParams_exact s
      have cxt : t.cxt = s.cxt := by rw [same]
      have imageHdr : t.imageHdr = s.imageHdr := by rw [same]
      rw [Act.bind_run, run]
      cases r with
      | error err =>
        refine ⟨_, t, l, rfl, cxt, imageHdr, only, iff_of_false (by rintro ⟨⟩) ?_, by rintro ⟨⟩⟩
        rintro (initialized | ⟨-, given, -⟩)
        · exact uninitialized initialized
        · cases granted.mpr given
      | ok _ =>
        rw [Act.andThen_ok, Act.bind_ok (Act.update_run _ t)]
        generalize closed : ({ t with handles := fun k => if k < maxHandles then
          { t.handles k with refCount := 0 } else t.handles k } : St) = t'
        have alike : Supported e t' ↔ Supported e s := by
          rw [← closed, same]
          rfl
        have oom : t'.oom = t.oom := by rw [← closed]
        have cxt' : t'.cxt = s.cxt := by rw [← closed]; exact cxt
        have imageHdr' : t'.imageHdr = s.imageHdr := by rw [← closed]; exact imageHdr
        obtain ⟨n, u, run', reads, supported⟩ := getPartitionBaseOnGolden_supported e t'
        rw [Act.bind_ok run', Act.bind_ok (Act.update_run _ u), Act.ite_run]
        split
        next neither =>
          refine ⟨_, _, _, rfl, reads.cxt.trans cxt', reads.imageHdr.trans imageHdr', ?_,
            iff_of_false (by rintro ⟨⟩) ?_, by rintro ⟨⟩⟩
          · rw [Act.fail_run, List.append_nil]
            exact only
          · rintro (initialized | ⟨-, -, enough⟩)
            · exact uninitialized initialized
            · obtain two | three := supported.mpr (alike.mpr enough)
              · exact neither.1 two
              · exact neither.2 three
        next either =>
          have enough : n = 2 ∨ n = 3 := by omega
          refine ⟨_, _, _, rfl, reads.cxt.trans cxt', reads.imageHdr.trans imageHdr', ?_,
            iff_of_true rfl (.inr ⟨?_, granted.mp rfl, alike.mp (supported.mp enough)⟩), fun _ => ?_⟩
          · rw [Act.update_run, List.append_nil]
            exact only
          · simpa using ready
          · have kept : u.oom = t.oom := by rw [reads.eq, oom]
            refine kept.trans (left.trans ?_)
            by_cases there : s.memParams = true
            · rw [if_pos there, if_pos (.inr there)]
            · rw [if_neg there, if_neg (by rintro (h | h); exacts [uninitialized h, there h])]

/-! ## The clean-up -/

/-- What `fw_upgrade_session_fin` frees: the header, the image entries and the digest only if
they are there. -/
def finNotes (config entries digest : Bool) : List Event :=
  (if config then [.note (.free .config)] else []) ++ [.note (.free .tmpBuffer)] ++
    (if entries then [.note (.free .imageHdr)] else []) ++
    (if digest then [.note (.free .digest)] else []) ++ [.note (.free .context)]

theorem finNotes_no_null (config entries digest : Bool) :
    .note .nullContext ∉ finNotes config entries digest := by
  cases config <;> cases entries <;> cases digest <;> simp [finNotes]

/-- Nothing but parameters is left of a session that is freed with its digest. -/
theorem balance_finNotes {b : Block} (ne : b ≠ .memParams) {s : St} {c : Cxt}
    (hc : s.cxt = some c) :
    s.blocks b + balance b (finNotes c.configBuf.isSome s.imageHdr.isSome true) = 0 := by
  cases b with
  | memParams => exact absurd rfl ne
  | _ =>
    simp only [St.blocks, hc, Option.isSome_some, Option.bind_some]
    cases c.configBuf.isSome <;> cases s.imageHdr.isSome <;> rfl

section Fin
variable {s : St} {c : Cxt}

theorem sessionFin_some (hc : s.cxt = some c) (digestCtx : Bool) :
    sessionFin digestCtx s = ⟨.ok (), { s with
      handles := freed c.partitionHdl s.handles, cxt := none, imageHdr := none },
      finNotes c.configBuf.isSome s.imageHdr.isSome digestCtx⟩ := by
  unfold sessionFin
  have release := fun (t : St) (h : t.cxt = some c) => releasePartition_run h
  cases hi : s.imageHdr <;> cases hb : c.configBuf <;> cases digestCtx <;>
    simp only [Act.bind_run, Act.read_run, Act.andThen_ok, hc, hi, hb, Act.emit_run,
      Option.isSome_none, Option.isSome_some, Bool.false_eq_true, if_false, if_true, free,
      Act.update_run, release] <;>
    rfl

/-- Without a session the clean-up reads through a NULL pointer. -/
theorem sessionFin_none (none : s.cxt = none) (digestCtx : Bool) :
    .note .nullContext ∈ (sessionFin digestCtx s).trace := by
  unfold sessionFin
  rw [Act.bind_ok (Act.read_run s), none]
  exact Act.mem_trace_bind (m := Act.emit (Event.note .nullContext)) (List.mem_singleton_self _)

theorem freed_closed (k : Nat) (hs : Nat → Client) : ((freed (some k) hs) k).refCount = 0 :=
  congrArg Client.refCount (Function.update_self k _ hs)

end Fin

/-! ## The start -/

theorem malloc_exact (b : Block) (s : St) :
    malloc b s = ⟨.ok (!s.oom.headD false), { s with oom := s.oom.tail },
      [.note (if s.oom.headD false then .denied b else .alloc b)]⟩ := by
  unfold malloc
  simp only [Act.bind_run, Act.read_run, Act.andThen_ok, Act.update_run, Act.ite_run]
  cases s.oom.headD false <;> rfl

/-- There is a session, or one can be set up as far as its context; where the buffer then is
denied, no image entries are left without a session. -/
def Startable (e : Env) (s : St) : Prop :=
  s.cxt ≠ none ∨ CanInit e s ∧ (oomAfterInit s).headD false = false ∧
    ((oomAfterInit s).tail.headD false = true → s.imageHdr = none)

section Start
variable {e : Env} {s t : St} {l : List Event}

/-- `fw_upgrade_init` fails: the clean-up is for the session there has been. -/
theorem sessionInit_fails (cannot : ¬CanInit e s) : ∃ t l, ParamsOnly l ∧ t.cxt = s.cxt ∧
    t.imageHdr = s.imageHdr ∧ sessionInit e s = ⟨.error .flashInitTimeout,
      (sessionFin true t).state, l ++ (sessionFin true t).trace⟩ := by
  obtain ⟨r, t, l, run, cxt, imageHdr, only, can, -⟩ := init_exact e s
  refine ⟨t, l, only, cxt, imageHdr, Act.attempt_then run ?_⟩
  cases r with
  | ok _ => exact absurd (can.mp rfl) cannot
  | error err =>
    obtain ⟨hs, k, fin, -⟩ := sessionFin_run true t
    rw [fin]
    have fails := Act.bind_then (f := fun _ => (Act.fail .flashInitTimeout : M Unit)) fin rfl
    rw [List.append_nil] at fails
    exact fails

theorem sessionInit_reuses (can : CanInit e s) (existing : s.cxt ≠ none) :
    ∃ t l, ParamsOnly l ∧ t.cxt = some freshCxt ∧
      sessionInit e s = ⟨.ok (), t, l ++ [.start]⟩ := by
  obtain ⟨r, t, l, run, cxt, -, only, can', -⟩ := init_exact e s
  obtain rfl := can'.mpr can
  refine ⟨{ t with cxt := some freshCxt }, l, only, rfl, Act.attempt_then run ?_⟩
  have there : t.cxt.isSome = true := by
    rw [cxt]
    exact Option.isSome_iff_ne_none.mpr existing
  dsimp only
  rw [Act.bind_ok (Act.read_run t), if_pos there]
  rfl

/-- Without a session the context is asked for, then the buffer, then the digest. -/
theorem sessionInit_allocates (can : CanInit e s) (none : s.cxt = none) :
    ∃ t l, ParamsOnly l ∧ t.cxt = .none ∧ t.imageHdr = s.imageHdr ∧ t.oom = oomAfterInit s ∧
      ∀ r u k, (do
        if !(← malloc .context) then
          sessionFin true
          Act.fail .insufficientMemory
        else if !(← malloc .tmpBuffer) then
          free .context
          Act.fail .insufficientMemory
        else
          Act.update fun s => { s with cxt := some freshCxt }
          if !(← malloc .digest) then
            sessionFin false
            Act.fail .insufficientMemory
          else Act.emit .start : M Unit) t = ⟨r, u, k⟩ → sessionInit e s = ⟨r, u, l ++ k⟩ := by
  obtain ⟨r, t, l, run, cxt, imageHdr, only, can', oom⟩ := init_exact e s
  obtain rfl := can'.mpr can
  refine ⟨t, l, only, cxt.trans none, imageHdr, oom rfl, fun r u k rest => Act.attempt_then run ?_⟩
  have closed : ¬t.cxt.isSome = true := by
    rw [cxt, none]
    exact Bool.false_ne_true
  dsimp only
  rw [Act.bind_ok (Act.read_run t), if_neg closed]
  exact rest

theorem sessionInit_denied_context (can : CanInit e s) (none : s.cxt = none)
    (denied : (oomAfterInit s).headD false = true) :
    .note .nullContext ∈ (sessionInit e s).trace := by
  obtain ⟨t, l, -, closed, -, oom, run⟩ := sessionInit_allocates can none
  have context := malloc_exact .context t
  rw [oom, denied] at context
  obtain ⟨hs, k, fin, -⟩ := sessionFin_run true { t with oom := (oomAfterInit s).tail }
  have null := sessionFin_none (s := { t with oom := (oomAfterInit s).tail }) closed true
  rw [fin] at null
  rw [run _ _ _ (Act.bind_then context (Act.bind_then fin rfl))]
  exact List.mem_append_right _ (List.mem_append_right _ (List.mem_append_left _ null))

theorem sessionInit_denied_buffer (can : CanInit e s) (none : s.cxt = none)
    (granted : (oomAfterInit s).headD false = false)
    (denied : (oomAfterInit s).tail.headD false = true) :
    ∃ t l, ParamsOnly l ∧ t.cxt = .none ∧ t.imageHdr = s.imageHdr ∧
      sessionInit e s = ⟨.error .insufficientMemory, t,
        l ++ [.note (.alloc .context), .note (.denied .tmpBuffer), .note (.free .context)]⟩ := by
  obtain ⟨t, l, only, closed, imageHdr, oom, run⟩ := sessionInit_allocates can none
  have context := malloc_exact .context t
  rw [oom, granted] at context
  have buffer := malloc_exact .tmpBuffer { t with oom := (oomAfterInit s).tail }
  simp only [denied] at buffer
  exact ⟨{ t with oom := (oomAfterInit s).tail.tail }, l, only, closed, imageHdr,
    run _ _ _ (Act.bind_then context (Act.bind_then buffer rfl))⟩

theorem sessionInit_denied_digest (can : CanInit e s) (none : s.cxt = none)
    (granted : (oomAfterInit s).headD false = false)
    (granted' : (oomAfterInit s).tail.headD false = false)
    (denied : (oomAfterInit s).tail.tail.headD false = true) :
    ∃ t l, ParamsOnly l ∧ t.cxt = .none ∧ t.imageHdr = .none ∧
      sessionInit e s = ⟨.error .insufficientMemory, t,
        l ++ ([.note (.alloc .context), .note (.alloc .tmpBuffer), .note (.denied .digest)] ++
          finNotes false s.imageHdr.isSome false)⟩ := by
  obtain ⟨t, l, only, closed, imageHdr, oom, run⟩ := sessionInit_allocates can none
  have context := malloc_exact .context t
  rw [oom, granted] at context
  have buffer := malloc_exact .tmpBuffer { t with oom := (oomAfterInit s).tail }
  simp only [granted'] at buffer
  have digest := malloc_exact .digest
    { t with oom := (oomAfterInit s).tail.tail, cxt := some freshCxt }
  simp only [denied] at digest
  have fin := sessionFin_some (s := { t with
    oom := (oomAfterInit s).tail.tail.tail, cxt := some freshCxt }) rfl false
  refine ⟨{ t with oom := (oomAfterInit s).tail.tail.tail, cxt := .none, imageHdr := .none }, l,
    only, rfl, rfl, (run _ _ _ (Act.bind_then context (Act.bind_then buffer
      (Act.bind_then (Act.update_run _ _) (Act.bind_then digest (Act.bind_then fin rfl)))))).trans ?_⟩
  rw [List.append_nil]
  simp only [imageHdr]
  rfl

theorem sessionInit_succeeds (can : CanInit e s) (none : s.cxt = none)
    (granted : (oomAfterInit s).headD false = false)
    (granted' : (oomAfterInit s).tail.headD false = false)
    (granted'' : (oomAfterInit s).tail.tail.headD false = false) :
    ∃ t l, ParamsOnly l ∧ t.cxt = some freshCxt ∧
      sessionInit e s = ⟨.ok (), t, l ++ [.note (.alloc .context), .note (.alloc .tmpBuffer),
        .note (.alloc .digest), .start]⟩ := by
  obtain ⟨t, l, only, closed, imageHdr, oom, run⟩ := sessionInit_allocates can none
  have context := malloc_exact .context t
  rw [oom, granted] at context
  have buffer := malloc_exact .tmpBuffer { t with oom := (oomAfterInit s).tail }
  simp only [granted'] at buffer
  have digest := malloc_exact .digest
    { t with oom := (oomAfterInit s).tail.tail, cxt := some freshCxt }
  simp only [granted''] at digest
  exact ⟨{ t with oom := (oomAfterInit s).tail.tail.tail, cxt := some freshCxt }, l, only, rfl,
    run _ _ _ (Act.bind_then context (Act.bind_then buffer
      (Act.bind_then (Act.update_run _ _) (Act.bind_then digest rfl))))⟩

theorem blocks_gone (cxt : s.cxt = none) (imageHdr : s.imageHdr = none) {b : Block}
    (ne : b ≠ .memParams) : s.blocks b = 0 := by
  cases b with
  | memParams => exact absurd rfl ne
  | _ => simp only [St.blocks, cxt, imageHdr, Option.isSome_none, Option.bind_none, Bool.toNat_false]

theorem StartsWell.of_ok {c : Cxt} (run : sessionInit e s = ⟨.ok (), t, l⟩)
    (no_null : .note .nullContext ∉ l) (cxt : t.cxt = some c) (start : AtStart c) :
    StartsWell e s := by
  constructor
  · rw [run]
    exact no_null
  · rw [run]
    rintro err ⟨⟩
  · rw [run]
    exact fun _ => ⟨c, cxt, start⟩

theorem StartsWell.of_error {err : Status} (run : sessionInit e s = ⟨.error err, t, l⟩)
    (no_null : .note .nullContext ∉ l) (ended : Ended s t l) : StartsWell e s := by
  constructor
  · rw [run]
    exact no_null
  · rw [run]
    exact fun _ _ => ended
  · rw [run]
    rintro ⟨⟩

/-- The session before is freed when `fw_upgrade_init` fails. -/
theorem StartsWell.of_fails (cannot : ¬CanInit e s) {c : Cxt} (hc : s.cxt = some c) :
    StartsWell e s := by
  obtain ⟨t, l, only, cxt, imageHdr, run⟩ := sessionInit_fails cannot
  have hct : t.cxt = some c := cxt.trans hc
  rw [sessionFin_some hct] at run
  apply StartsWell.of_error run
  · exact only.no_null_append (finNotes_no_null _ _ _)
  · refine ⟨rfl, fun b ne => ⟨blocks_gone rfl rfl ne, ?_⟩, ?_⟩
    · rw [balance_append, only.balance ne, Int.zero_add, imageHdr]
      exact balance_finNotes ne hc
    · intro c' k hc' hk
      obtain rfl : c = c' := Option.some.inj (hc.symm.trans hc')
      rw [hk]
      exact freed_closed k t.handles

/-- Where the buffer or the digest is denied, there was no session. -/
theorem Ended.of_none (none : s.cxt = none) (cxt : t.cxt = .none) (imageHdr : t.imageHdr = .none)
    (only : ParamsOnly l) {k : List Event}
    (balanced : ∀ b, b ≠ .memParams → s.blocks b + balance b k = 0) : Ended s t (l ++ k) := by
  refine ⟨cxt, fun b ne => ⟨blocks_gone cxt imageHdr ne, ?_⟩, ?_⟩
  · rw [balance_append, only.balance ne, Int.zero_add]
    exact balanced b ne
  · intro c k hc
    rw [none] at hc
    cases hc

/-- A context that is there is used, and what there is on an error is given back, exactly if
there has been a session or one can be set up as far as its context. -/
theorem session_starts_iff (e : Env) (s : St) : StartsWell e s ↔ Startable e s := by
  constructor
  · intro well
    by_cases none : s.cxt = none
    · right
      have can : CanInit e s := by
        by_contra cannot
        obtain ⟨t, l, -, cxt, -, run⟩ := sessionInit_fails cannot
        apply well.no_null
        rw [run]
        exact List.mem_append_right _ (sessionFin_none (cxt.trans none) true)
      have granted : (oomAfterInit s).headD false = false := by
        cases denied : (oomAfterInit s).headD false with
        | false => rfl
        | true => exact absurd (sessionInit_denied_context can none denied) well.no_null
      refine ⟨can, granted, fun denied => ?_⟩
      obtain ⟨t, l, -, -, imageHdr, run⟩ := sessionInit_denied_buffer can none granted denied
      have failed := well.failed .insufficientMemory (by rw [run])
      have gone : t.blocks .imageHdr = 0 := by
        rw [run] at failed
        exact (failed.released .imageHdr (by decide)).1
      rw [← imageHdr]
      cases hi : t.imageHdr with
      | none => rfl
      | some hdrs =>
        simp only [St.blocks, hi, Option.isSome_some, Bool.toNat_true] at gone
        cases gone
    · exact .inl none
  · intro startable
    by_cases can : CanInit e s
    · by_cases none : s.cxt = none
      · obtain existing | ⟨-, granted, noHdr⟩ := startable
        · exact absurd none existing
        cases buffer : (oomAfterInit s).tail.headD false with
        | true =>
          obtain ⟨t, l, only, cxt, imageHdr, run⟩ := sessionInit_denied_buffer can none granted buffer
          apply StartsWell.of_error run
          · exact only.no_null_append (by simp)
          · have empty := noHdr buffer
            refine .of_none none cxt (imageHdr.trans empty) only fun b ne => ?_
            rw [blocks_gone none empty ne]
            cases b <;> rfl
        | false =>
          cases digest : (oomAfterInit s).tail.tail.headD false with
          | true =>
            obtain ⟨t, l, only, cxt, imageHdr, run⟩ :=
              sessionInit_denied_digest can none granted buffer digest
            apply StartsWell.of_error run
            · apply only.no_null_append
              intro mem
              obtain early | late := List.mem_append.mp mem
              · simp at early
              · exact finNotes_no_null _ _ _ late
            · refine .of_none none cxt imageHdr only fun b ne => ?_
              cases b with
              | memParams => exact absurd rfl ne
              | _ =>
                simp only [St.blocks, none, Option.isSome_none, Option.bind_none]
                cases s.imageHdr.isSome <;> rfl
          | false =>
            obtain ⟨t, l, only, cxt, run⟩ := sessionInit_succeeds can none granted buffer digest
            exact .of_ok run (only.no_null_append (by simp)) cxt freshCxt_atStart
      · obtain ⟨t, l, only, cxt, run⟩ := sessionInit_reuses can none
        exact .of_ok run (only.no_null_append (by simp)) cxt freshCxt_atStart
    · obtain existing | ⟨can', -⟩ := startable
      · obtain ⟨c, hc⟩ := Option.ne_none_iff_exists'.mp existing
        exact .of_fails can hc
      · exact absurd can' can

end Start

/-- The parameters are granted and the context is denied. -/
def crowdedDevice : St := { plainDevice with oom := [false, true] }

theorem denied_context_used : crowdedDevice.cxt = none ∧
    .note .nullContext ∈ (sessionInit plainEnv crowdedDevice).trace := by
  have valid : fdtValid crowdedDevice.rram = true := by decide
  have can : CanInit plainEnv crowdedDevice :=
    .inr ⟨rfl, .inr rfl, valid, .inr ⟨by decide, rfl⟩⟩
  exact ⟨rfl, sessionInit_denied_context can rfl rfl⟩

end Qapp.Fw
