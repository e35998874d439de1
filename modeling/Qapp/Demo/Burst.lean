import Mathlib.Data.List.Basic

/-!
# The burst test

`ring_burst` starts a thread that sends packets until its test is over or it is stopped. The
command handler and the threads share `burst_params`, and each step is one access to it. What
is printed is left out.
-/

namespace Qapp.Demo

/-- `enum burst_test_mode`. -/
inductive BurstMode
  | count | time | data
  deriving DecidableEq, Repr

/-- `struct burst_test_params`; `value` is the union. -/
structure BurstParams where
  ringId : UInt8
  mode : BurstMode
  value : UInt32
  size : UInt32
  running : Bool
  deriving DecidableEq, Repr

/-- What the test shall do. -/
def BurstParams.settings (params : BurstParams) : UInt8 × BurstMode × UInt32 × UInt32 :=
  (params.ringId, params.mode, params.value, params.size)

/-- The clock, and the outcome of the call that a step makes. -/
structure Outside where
  now : UInt32
  ok : Bool

/-! ## The thread -/

/-- The next access of a thread, or call. The main loop is from `head` to `yield`. -/
inductive BurstPc
  | ringId | size | malloc | clock | limits | endTime | targetBytes
  | head | check | checkCount | send | yield
  | complete | ended
  deriving DecidableEq, Repr

def BurstPc.inLoop : BurstPc → Bool
  | .head | .check | .checkCount | .send | .yield => true
  | _ => false

structure BurstThread where
  pc : BurstPc
  ringId : UInt8
  size : UInt32
  startTime : UInt32
  endTime : UInt32
  targetBytes : UInt64
  totalBytes : UInt64
  packetIndex : UInt32
  deriving DecidableEq, Repr

namespace BurstThread

def created : BurstThread := ⟨.ringId, 0, 0, 0, 0, 0, 0, 0⟩

/-- `burst_test_thread`. -/
def step (t : BurstThread) (params : BurstParams) (x : Outside) :
    Option (BurstThread × BurstParams) :=
  match t.pc with
  | .ringId => some ({ t with pc := .size, ringId := params.ringId }, params)
  | .size => some ({ t with pc := .malloc, size := params.size }, params)
  | .malloc =>
    if x.ok then some ({ t with pc := .clock }, params)
    else some ({ t with pc := .ended }, { params with running := false })
  | .clock => some ({ t with pc := .limits, startTime := x.now }, params)
  | .limits =>
    match params.mode with
    | .time => some ({ t with pc := .endTime }, params)
    | .data => some ({ t with pc := .targetBytes }, params)
    | .count => some ({ t with pc := .head }, params)
  | .endTime => some ({ t with pc := .head, endTime := t.startTime + params.value * 1000 }, params)
  | .targetBytes =>
    some ({ t with pc := .head, targetBytes := params.value.toUInt64 * 1024 * 1024 }, params)
  | .head => some ({ t with pc := if params.running then .check else .complete }, params)
  | .check =>
    match params.mode with
    | .count => some ({ t with pc := .checkCount }, params)
    | .time => some ({ t with pc := if t.endTime ≤ x.now then .complete else .send }, params)
    | .data =>
      some ({ t with pc := if t.targetBytes ≤ t.totalBytes then .complete else .send }, params)
  | .checkCount =>
    some ({ t with pc := if params.value ≤ t.packetIndex then .complete else .send }, params)
  | .send =>
    let totalBytes := if x.ok then t.totalBytes + t.size.toUInt64 else t.totalBytes
    some ({ t with pc := .yield, totalBytes, packetIndex := t.packetIndex + 1 }, params)
  | .yield => some ({ t with pc := .head }, params)
  | .complete => some ({ t with pc := .ended }, { params with running := false })
  | .ended => none

end BurstThread

/-! ## The command -/

inductive BurstError
  | inval | busy | create
  deriving DecidableEq, Repr

/-- A store of the handler to `burst_params`. -/
inductive BurstStore
  | ringId (n : UInt8)
  | mode (m : BurstMode)
  | value (n : UInt32)
  | size (n : UInt32)
  | running (b : Bool)
  deriving DecidableEq, Repr

def BurstParams.store (params : BurstParams) : BurstStore → BurstParams
  | .ringId n => { params with ringId := n }
  | .mode m => { params with mode := m }
  | .value n => { params with value := n }
  | .size n => { params with size := n }
  | .running b => { params with running := b }

/-- The arguments of a test; `mode` is `none` if the word is unknown. -/
structure BurstArgs where
  mode : Option BurstMode
  ringId : UInt8
  value : UInt32
  size : UInt32
  deriving DecidableEq, Repr

/-- `MAX_RINGS`. -/
def maxRings : UInt8 := 8

/-- The largest count, seconds and megabytes. -/
def BurstMode.limit : BurstMode → UInt32
  | .count => 1000000
  | .time => 360000
  | .data => 10240

/-- What the handler stores for valid arguments, in its order. -/
def BurstArgs.stores (a : BurstArgs) : Option (List BurstStore) :=
  match a.mode with
  | none => none
  | some mode =>
    if maxRings ≤ a.ringId then none
    else if a.size = 0 ∨ 1500 < a.size then none
    else if a.value = 0 ∨ mode.limit < a.value then none
    else some [.value a.value, .ringId a.ringId, .mode mode, .size a.size, .running true]

inductive BurstCommand
  | usage
  | stop
  | start (a : BurstArgs)
  deriving DecidableEq, Repr

/-- Where `ring_send_burst` is. With nothing left to store it creates the thread. -/
inductive BurstHandler
  | returned (ret : Except BurstError Unit)
  | stopping
  | clock
  | waiting (timeout : UInt32)
  | storing (todo : List BurstStore)
  | createFailed
  deriving DecidableEq

/-- The first access of the handler: it finds the test running, or not. -/
def BurstCommand.enter (params : BurstParams) : BurstCommand → BurstHandler
  | .usage => .returned (.error .inval)
  | .stop => if params.running then .stopping else .returned (.ok ())
  | .start a =>
    if params.running then .returned (.error .busy)
    else match a.stores with
      | none => .returned (.error .inval)
      | some todo => .storing todo

/-! ## Both together -/

structure BurstState where
  params : BurstParams
  handler : BurstHandler
  threads : List BurstThread
  deriving DecidableEq

inductive BurstAct
  | command (c : BurstCommand)
  | handler (x : Outside)
  | thread (i : Nat) (x : Outside)

namespace BurstState

def boot : BurstState := ⟨⟨0, .count, 0, 0, false⟩, .returned (.ok ()), []⟩

/-- `ring_send_burst` behind its first access. -/
def handle (s : BurstState) (x : Outside) : Option BurstState :=
  match s.handler with
  | .returned _ => none
  | .stopping => some { s with params := { s.params with running := false }, handler := .clock }
  | .clock => some { s with handler := .waiting (x.now + 5000) }
  | .waiting timeout =>
    if s.params.running && x.now < timeout then some s
    else some { s with handler := .returned (.ok ()) }
  | .storing (w :: todo) => some { s with params := s.params.store w, handler := .storing todo }
  | .storing [] =>
    if x.ok then
      some { s with threads := s.threads ++ [.created], handler := .returned (.ok ()) }
    else some { s with handler := .createFailed }
  | .createFailed =>
    some { s with
      params := { s.params with running := false }, handler := .returned (.error .create) }

def step (s : BurstState) : BurstAct → Option BurstState
  | .command c =>
    match s.handler with
    | .returned _ => some { s with handler := c.enter s.params }
    | _ => none
  | .handler x => s.handle x
  | .thread i x =>
    match s.threads[i]? with
    | none => none
    | some t => (t.step s.params x).map fun (t', params) =>
        { s with params, threads := s.threads.set i t' }

end BurstState

structure BurstMoment where
  before : BurstState
  act : BurstAct
  after : BurstState

/-- The steps since boot in any order of the handler and the threads, the last one first. -/
inductive BurstRun : List BurstMoment → BurstState → Prop
  | boot : BurstRun [] .boot
  | next {past : List BurstMoment} {s s' : BurstState} {act : BurstAct} (run : BurstRun past s)
      (step : s.step act = some s') : BurstRun (⟨s, act, s'⟩ :: past) s'

/-- No two of the threads meet `P`. -/
def AtMostOne (P : BurstThread → Prop) (threads : List BurstThread) : Prop :=
  ∀ (i j : Nat) (t u : BurstThread), threads[i]? = some t → P t → threads[j]? = some u → P u →
    i = j

def BurstThread.Live (t : BurstThread) : Prop := t.pc ≠ .ended

/-- At most one thread is in its main loop. -/
def BurstState.Single (s : BurstState) : Prop :=
  AtMostOne (fun t => t.pc.inLoop = true) s.threads

/-- The settings of a thread that has not ended do not change. -/
def BurstMoment.Steady (m : BurstMoment) : Prop :=
  ∀ t ∈ m.before.threads, t.Live → m.after.params.settings = m.before.params.settings

def BurstState.Over (s : BurstState) : Prop := ∀ t ∈ s.threads, ¬t.Live

/-- A test that is started finds every thread before it ended. -/
def BurstMoment.Clear (m : BurstMoment) : Prop :=
  ∀ a todo, m.act = .command (.start a) → m.before.params.running = false →
    a.stores = some todo → m.before.Over

/-! ## Threads one after the other -/

section AtMostOne
variable {P Q : BurstThread → Prop} {threads : List BurstThread} {t : BurstThread}

theorem AtMostOne.mono (h : AtMostOne Q threads) (imp : ∀ t, P t → Q t) : AtMostOne P threads :=
  fun i j t u ht pt hu pu => h i j t u ht (imp t pt) hu (imp u pu)

theorem AtMostOne.append (none : ∀ t ∈ threads, ¬P t) (t : BurstThread) :
    AtMostOne P (threads ++ [t]) := by
  have last : ∀ (i : Nat) (u : BurstThread), (threads ++ [t])[i]? = some u → P u →
      i = threads.length := by
    intro i u at_i pu
    rcases Nat.lt_or_ge i threads.length with old | new
    · rw [List.getElem?_append_left old] at at_i
      exact absurd pu (none u (List.mem_of_getElem? at_i))
    · have bound := (List.getElem?_eq_some_iff.mp at_i).1
      simp only [List.length_append, List.length_cons, List.length_nil] at bound
      omega
  intro i j u v hu pu hv pv
  rw [last i u hu pu, last j v hv pv]

/-- A thread that meets `P` may be changed. -/
theorem AtMostOne.set {i : Nat} (h : AtMostOne P threads) (here : threads[i]? = some t) (pt : P t)
    (t' : BurstThread) : AtMostOne P (threads.set i t') := by
  have only : ∀ (j : Nat) (u : BurstThread), (threads.set i t')[j]? = some u → P u → j = i := by
    intro j u at_j pu
    by_cases same : i = j
    · exact same.symm
    · rw [List.getElem?_set_ne same] at at_j
      exact h j i u t at_j pu here pt
  intro j k u v hu pu hv pv
  rw [only j u hu pu, only k v hv pv]

theorem AtMostOne.over_set {i : Nat} (h : AtMostOne P threads) (here : threads[i]? = some t)
    (pt : P t) {t' : BurstThread} (done : ¬P t') : ∀ u ∈ threads.set i t', ¬P u := by
  intro u mem pu
  obtain ⟨j, at_j⟩ := List.mem_iff_getElem?.mp mem
  by_cases same : i = j
  · subst same
    rw [List.getElem?_set_self (List.getElem?_eq_some_iff.mp here).1] at at_j
    cases at_j
    exact done pu
  · rw [List.getElem?_set_ne same] at at_j
    exact same (h i j t u here pt at_j pu)

end AtMostOne

/-! ## What a step can do -/

/-- A thread writes nothing but the end of its test. -/
theorem BurstThread.step_cases {t t' : BurstThread} {params params' : BurstParams} {x : Outside}
    (h : t.step params x = some (t', params')) : t.Live ∧
      (params' = params ∨ params' = { params with running := false } ∧ t'.pc = .ended) := by
  unfold BurstThread.step at h
  unfold BurstThread.Live
  cases pc : t.pc <;> simp only [pc] at h
  case malloc =>
    split at h <;> cases h
    · exact ⟨nofun, .inl rfl⟩
    · exact ⟨nofun, .inr ⟨rfl, rfl⟩⟩
  case limits | check =>
    split at h <;> cases h <;> exact ⟨nofun, .inl rfl⟩
  case complete =>
    cases h
    exact ⟨nofun, .inr ⟨rfl, rfl⟩⟩
  case ended => cases h
  all_goals
    cases h
    exact ⟨nofun, .inl rfl⟩

/-- The handler is about to create a thread, or has failed to. -/
def BurstHandler.starting : BurstHandler → Bool
  | .storing _ | .createFailed => true
  | _ => false

theorem BurstCommand.enter_starting {c : BurstCommand} {params : BurstParams}
    (h : (c.enter params).starting = true) :
    ∃ a todo, c = .start a ∧ params.running = false ∧ a.stores = some todo ∧
      c.enter params = .storing todo := by
  cases c with
  | usage => cases h
  | stop =>
    simp only [enter] at h
    split at h <;> cases h
  | start a =>
    cases running : params.running with
    | true =>
      rw [enter, running] at h
      cases h
    | false =>
      cases stores : a.stores with
      | none =>
        simp only [enter, running, stores] at h
        cases h
      | some todo => exact ⟨a, todo, rfl, rfl, stores, by simp [enter, running, stores]⟩

/-! ## At most one thread lives -/

structure BurstState.Sound (s : BurstState) : Prop where
  single : AtMostOne BurstThread.Live s.threads
  alone : s.handler.starting = true → s.Over

theorem sound_boot : BurstState.boot.Sound where
  single := by
    intro i j t u at_i
    cases at_i
  alone := nofun

theorem BurstState.Sound.handle {s s' : BurstState} {x : Outside} (sound : s.Sound)
    (h : s.handle x = some s') : s'.Sound := by
  unfold BurstState.handle at h
  cases at_ : s.handler with
  | returned ret =>
    rw [at_] at h
    cases h
  | stopping | clock =>
    rw [at_] at h
    cases h
    exact ⟨sound.single, nofun⟩
  | waiting timeout =>
    rw [at_] at h
    dsimp only at h
    split at h <;> cases h
    · exact sound
    · exact ⟨sound.single, nofun⟩
  | createFailed =>
    rw [at_] at h
    cases h
    exact ⟨sound.single, nofun⟩
  | storing todo =>
    have none := sound.alone (by rw [at_]; rfl)
    rw [at_] at h
    cases todo with
    | cons w todo =>
      cases h
      exact ⟨sound.single, fun _ => none⟩
    | nil =>
      dsimp only at h
      split at h <;> cases h
      · exact ⟨.append none _, nofun⟩
      · exact ⟨sound.single, fun _ => none⟩

/-- With the condition on what is started, one live thread stays the only one. -/
theorem BurstState.Sound.step {s s' : BurstState} {act : BurstAct} (sound : s.Sound)
    (h : s.step act = some s') (clear : BurstMoment.Clear ⟨s, act, s'⟩) : s'.Sound := by
  cases act with
  | command c =>
    simp only [BurstState.step] at h
    split at h <;> cases h
    constructor
    · exact sound.single
    · intro starting
      obtain ⟨a, todo, rfl, idle, stores, -⟩ := BurstCommand.enter_starting starting
      exact clear a todo rfl idle stores
  | handler x => exact sound.handle h
  | thread i x =>
    simp only [BurstState.step] at h
    split at h
    · cases h
    · rename_i t here
      obtain ⟨⟨t', params⟩, took, rfl⟩ := Option.map_eq_some_iff.mp h
      have live := (BurstThread.step_cases took).1
      constructor
      · exact sound.single.set here live t'
      · intro starting
        exact absurd live (sound.alone starting t (List.mem_of_getElem? here))

theorem BurstRun.sound {past : List BurstMoment} {s : BurstState} (run : BurstRun past s)
    (clear : ∀ m ∈ past, m.Clear) : s.Sound := by
  induction run with
  | boot => exact sound_boot
  | next _ step ih =>
    have before := ih fun m mem => clear m (.tail _ mem)
    exact before.step step (clear _ (.head _))

theorem BurstState.Sound.one {s : BurstState} (sound : s.Sound) : s.Single := by
  apply sound.single.mono
  intro t inLoop ended
  rw [ended] at inLoop
  cases inLoop

/-- The settings are written with no thread alive. -/
theorem BurstState.Sound.steady {m : BurstMoment} (sound : m.before.Sound)
    (h : m.before.step m.act = some m.after) : m.Steady := by
  obtain ⟨s, act, s'⟩ := m
  intro t mem live
  dsimp only at h mem sound ⊢
  cases act with
  | command c =>
    simp only [BurstState.step] at h
    split at h <;> cases h
    rfl
  | handler x =>
    simp only [BurstState.step, BurstState.handle] at h
    cases at_ : s.handler with
    | storing todo => exact absurd live (sound.alone (by rw [at_]; rfl) t mem)
    | returned ret =>
      rw [at_] at h
      cases h
    | waiting timeout =>
      rw [at_] at h
      dsimp only at h
      split at h <;> cases h <;> rfl
    | stopping | clock | createFailed =>
      rw [at_] at h
      cases h
      rfl
  | thread i x =>
    simp only [BurstState.step] at h
    split at h
    · cases h
    · obtain ⟨⟨t', params⟩, took, rfl⟩ := Option.map_eq_some_iff.mp h
      rcases (BurstThread.step_cases took).2 with rfl | ⟨rfl, -⟩ <;> rfl

/-! ## Runs without a stop -/

/-- Without a stop the flag says whether a thread is alive. -/
structure BurstState.Told (s : BurstState) : Prop where
  sound : s.Sound
  alive : s.params.running = true ∨ s.Over
  stores : ∀ todo, s.handler = .storing todo → (todo.foldl BurstParams.store s.params).running = true
  running : s.handler ≠ .stopping

theorem BurstArgs.stores_running {a : BurstArgs} {todo : List BurstStore}
    (h : a.stores = some todo) (params : BurstParams) :
    (todo.foldl BurstParams.store params).running = true := by
  unfold stores at h
  split at h
  · cases h
  · split at h
    · cases h
    · split at h
      · cases h
      · split at h <;> cases h
        rfl

theorem told_boot : BurstState.boot.Told where
  sound := sound_boot
  alive := .inr fun t mem => by cases mem
  stores := nofun
  running := nofun

theorem BurstState.Told.clear {s s' : BurstState} {act : BurstAct} (told : s.Told) :
    BurstMoment.Clear ⟨s, act, s'⟩ := by
  intro a todo _ idle _
  exact told.alive.resolve_left fun running => Bool.false_ne_true (idle.symm.trans running)

theorem BurstState.Told.handle {s s' : BurstState} {x : Outside} (told : s.Told)
    (h : s.handle x = some s') : s'.Told := by
  have sound := told.sound.handle h
  unfold BurstState.handle at h
  cases at_ : s.handler with
  | returned ret =>
    rw [at_] at h
    cases h
  | stopping => exact absurd at_ told.running
  | clock =>
    rw [at_] at h
    cases h
    exact ⟨sound, told.alive, nofun, nofun⟩
  | waiting timeout =>
    rw [at_] at h
    dsimp only at h
    split at h <;> cases h
    · exact told
    · exact ⟨sound, told.alive, nofun, nofun⟩
  | createFailed =>
    have none := told.sound.alone (by rw [at_]; rfl)
    rw [at_] at h
    cases h
    exact ⟨sound, .inr none, nofun, nofun⟩
  | storing todo =>
    have none := told.sound.alone (by rw [at_]; rfl)
    have stores := told.stores todo at_
    rw [at_] at h
    cases todo with
    | cons w todo =>
      cases h
      constructor
      · exact sound
      · exact .inr none
      · intro todo' same
        cases same
        exact stores
      · nofun
    | nil =>
      dsimp only at h
      split at h <;> cases h
      · exact ⟨sound, .inl stores, nofun, nofun⟩
      · exact ⟨sound, .inr none, nofun, nofun⟩

theorem BurstState.Told.step {s s' : BurstState} {act : BurstAct} (told : s.Told)
    (h : s.step act = some s') (noStop : act ≠ .command .stop) : s'.Told := by
  have sound := told.sound.step h told.clear
  cases act with
  | command c =>
    simp only [BurstState.step] at h
    split at h <;> cases h
    cases c with
    | stop => exact absurd rfl noStop
    | usage => exact ⟨sound, told.alive, nofun, nofun⟩
    | start a =>
      constructor
      · exact sound
      · exact told.alive
      · intro todo entered
        have starting : (BurstCommand.enter s.params (.start a)).starting = true := by
          rw [show BurstCommand.enter s.params (.start a) = .storing todo from entered]
          rfl
        obtain ⟨b, todo', same, -, stores, enters⟩ := BurstCommand.enter_starting starting
        cases same
        cases enters.symm.trans entered
        exact BurstArgs.stores_running stores s.params
      · intro stops
        dsimp only [BurstCommand.enter] at stops
        split at stops
        · cases stops
        · split at stops <;> cases stops
  | handler x => exact told.handle h
  | thread i x =>
    simp only [BurstState.step] at h
    split at h
    · cases h
    · rename_i t here
      obtain ⟨⟨t', params⟩, took, rfl⟩ := Option.map_eq_some_iff.mp h
      have mem := List.mem_of_getElem? here
      obtain ⟨live, kept | ⟨-, ended⟩⟩ := BurstThread.step_cases took
      all_goals
        have idle : s.handler.starting = false := by
          cases starting : s.handler.starting with
          | false => rfl
          | true => exact absurd live (told.sound.alone starting t mem)
        have stores : ∀ todo, s.handler = .storing todo →
            (todo.foldl BurstParams.store params).running = true := by
          intro todo at_
          rw [at_] at idle
          cases idle
      · have running := told.alive.resolve_right fun none => none t mem live
        exact ⟨sound, .inl (kept ▸ running), stores, told.running⟩
      · have none := told.sound.single.over_set here live fun alive : t'.Live => alive ended
        exact ⟨sound, .inr none, stores, told.running⟩

/-- A test that is started finds every thread before it ended, as long as none is stopped. -/
theorem BurstRun.clear_of_no_stop {past : List BurstMoment} {s : BurstState}
    (run : BurstRun past s) (noStop : ∀ m ∈ past, m.act ≠ .command .stop) :
    s.Told ∧ ∀ m ∈ past, m.Clear := by
  induction run with
  | boot =>
    constructor
    · exact told_boot
    · intro m mem
      cases mem
  | next _ step ih =>
    obtain ⟨told, clear⟩ := ih fun m mem => noStop m (.tail _ mem)
    constructor
    · exact told.step step (noStop _ (.head _))
    · intro m mem
      cases mem with
      | head => exact told.clear
      | tail _ mem => exact clear m mem

/-! ## A stop and a start -/

/-- The state after some steps. -/
def BurstState.play (s : BurstState) : List BurstAct → Option BurstState
  | [] => some s
  | act :: acts => (s.step act).bind fun s' => s'.play acts

theorem BurstRun.play {past : List BurstMoment} {s s' : BurstState} {acts : List BurstAct}
    (run : BurstRun past s) (h : s.play acts = some s') :
    ∃ past', BurstRun past' s' ∧ ∀ m ∈ past', m ∈ past ∨ m.act ∈ acts := by
  induction acts generalizing past s with
  | nil =>
    cases h
    exact ⟨past, run, fun m mem => .inl mem⟩
  | cons act acts ih =>
    obtain ⟨next, step, rest⟩ := Option.bind_eq_some_iff.mp h
    obtain ⟨past', run', made⟩ := ih (run.next step) rest
    refine ⟨past', run', ?_⟩
    intro m mem
    cases made m mem with
    | inr later => exact .inr (.tail _ later)
    | inl mem =>
      cases mem with
      | head => exact .inr (.head _)
      | tail _ mem => exact .inl mem

/-- A start is all that can fail to be clear. -/
theorem BurstRun.play_clear {past : List BurstMoment} {s s' : BurstState} {acts : List BurstAct}
    (run : BurstRun past s) (clear : ∀ m ∈ past, m.Clear) (h : s.play acts = some s')
    (noStart : ∀ a, .command (.start a) ∉ acts) :
    ∃ past', BurstRun past' s' ∧ ∀ m ∈ past', m.Clear := by
  obtain ⟨past', run', made⟩ := run.play h
  refine ⟨past', run', fun m mem => ?_⟩
  cases made m mem with
  | inl earlier => exact clear m earlier
  | inr act =>
    intro a todo start
    rw [start] at act
    exact absurd act (noStart a)

theorem BurstRun.start_clear {past : List BurstMoment} {s s' : BurstState} {a : BurstArgs}
    (run : BurstRun past s) (clear : ∀ m ∈ past, m.Clear) (ended : s.Over)
    (h : s.step (.command (.start a)) = some s') :
    ∃ past', BurstRun past' s' ∧ ∀ m ∈ past', m.Clear := by
  refine ⟨_, run.next h, fun m mem => ?_⟩
  cases mem with
  | head => exact fun _ _ _ _ _ => ended
  | tail _ mem => exact clear m mem

/-- A test of 100 packets. -/
def hundred : BurstArgs := ⟨some .count, 0, 100, 64⟩

/-- From the start of the test on, with its thread `i` up to `ring_send`. -/
def sendActs (i : Nat) : List BurstAct :=
  List.replicate 6 (.handler ⟨0, true⟩) ++ List.replicate 8 (.thread i ⟨0, true⟩)

def burstActs (i : Nat) : List BurstAct := .command (.start hundred) :: sendActs i

def stopActs : List BurstAct := .command .stop :: List.replicate 3 (.handler ⟨0, true⟩)

/-- Thread `i` returns from `ring_send` and ends. -/
def endActs (i : Nat) : List BurstAct := List.replicate 4 (.thread i ⟨0, true⟩)

/-- A test was stopped in its first packet and its thread has ended. -/
def betweenBursts : BurstState where
  params := ⟨0, .count, 100, 64, false⟩
  handler := .returned (.ok ())
  threads := [⟨.ended, 0, 64, 0, 0, 0, 64, 1⟩]

theorem betweenBursts_over : betweenBursts.Over := by
  intro t mem live
  obtain rfl := List.mem_singleton.mp mem
  exact live rfl

/-- The handler has found a test of 100 packets in order. -/
def BurstState.ordered (s : BurstState) : BurstState :=
  { s with handler := BurstCommand.enter s.params (.start hundred) }

theorem reaches_betweenBursts : ∃ past, BurstRun past betweenBursts ∧ ∀ m ∈ past, m.Clear := by
  obtain ⟨past, run, clear⟩ := BurstRun.boot.start_clear
    (List.forall_mem_nil _) (List.forall_mem_nil _)
    (rfl : BurstState.boot.step (.command (.start hundred)) = some BurstState.boot.ordered)
  have acts : BurstState.boot.ordered.play (sendActs 0 ++ stopActs ++ endActs 0) =
      some betweenBursts := by decide
  exact run.play_clear clear acts (by simp [sendActs, stopActs, endActs])

/-- When every test that is started finds the threads before it ended, at most one thread is
ever in its main loop, and its settings stay as they are until it has ended. -/
theorem single_burst {past : List BurstMoment} {s : BurstState} (run : BurstRun past s)
    (clear : ∀ m ∈ past, m.Clear) : s.Single ∧ ∀ m ∈ past, m.before.Single ∧ m.Steady := by
  constructor
  · exact (run.sound clear).one
  · induction run with
    | boot =>
      intro m mem
      cases mem
    | next run step ih =>
      have earlier := fun m mem => clear m (.tail _ mem)
      have before := run.sound earlier
      intro m mem
      cases mem with
      | head => exact ⟨before.one, before.steady step⟩
      | tail _ mem => exact ih earlier m mem

/-- A test is stopped in its first packet, its thread ends, and the thread of a second test
sends a packet. -/
theorem single_burst_sends : ∃ past s, BurstRun past s ∧
    s.threads.map (·.pc) = [.ended, .send] ∧ s.Single ∧
      ∀ m ∈ past, m.before.Single ∧ m.Steady := by
  obtain ⟨past, run, clear⟩ := reaches_betweenBursts
  obtain ⟨past, run, clear⟩ := run.start_clear clear betweenBursts_over
    (rfl : betweenBursts.step (.command (.start hundred)) = some betweenBursts.ordered)
  obtain ⟨s, acts, pcs⟩ : ∃ s, betweenBursts.ordered.play (sendActs 1) = some s ∧
      s.threads.map (·.pc) = [.ended, .send] := ⟨_, rfl, rfl⟩
  obtain ⟨past, run, clear⟩ := run.play_clear clear acts (by simp [sendActs])
  exact ⟨past, s, run, pcs, single_burst run clear⟩

/-- The stop waits for the flag that it has cleared itself, and so for no thread: a test that
is started behind it sets the flag, and the thread blocked in `ring_send` goes on. -/
theorem two_bursts : ¬∀ past s, BurstRun past s →
    s.Single ∧ ∀ m ∈ past, m.before.Single ∧ m.Steady := by
  intro all
  have plays : BurstState.boot.play (burstActs 0 ++ stopActs ++ burstActs 1) = some _ := rfl
  obtain ⟨past, run, -⟩ := BurstRun.boot.play plays
  have single := (all past _ run).1
  exact Nat.zero_ne_one (single 0 1 _ _ rfl rfl rfl rfl)

end Qapp.Demo
