import Qapp.Lib.CString
import Qapp.Lib.SList

/-!
# The list of managed timers

Registering and unregistering in `pm_timer.c`, on the linked list itself. Entries come from
the heap, apart from the one for the shell's timer.
-/

namespace Qapp.PmTimers
open SList

/-- `struct pm_managed_timer`: `g_shell_uart_managed_timer`, or a block of the heap. -/
inductive Entry
  | shell
  | heap (addr : Nat)
  deriving DecidableEq

variable {Id : Type} [DecidableEq Id]

/-- `g_pm_timer_list`, the timer in each entry and the blocks that are in use. -/
structure Registry (Id : Type) where
  list : SList Entry
  timer : Entry → Option Id
  inUse : Nat → Bool

def boot : Registry Id := ⟨SList.empty, fun _ => none, fun _ => false⟩

/-- `pm_timer_register`, which refuses NULL. -/
def pmTimerRegister (mt : Option Entry) (timer : Option Id) (r : Registry Id) : Registry Id :=
  match mt, timer with
  | some mt, some timer =>
    { r with list := r.list.append mt, timer := Function.update r.timer mt (some timer) }
  | _, _ => r

/-- `pm_timer_register_internal`, with the block that `k_calloc` gives. -/
def pmTimerRegisterInternal (name : Option CString) (timer : Option Id) (block : Option Nat)
    (r : Registry Id) : Registry Id :=
  if name.isNone ∨ timer.isNone then r
  else
    match block with
    | none => pmTimerRegister none timer r
    | some addr =>
      pmTimerRegister (some (.heap addr)) timer
        { r with inUse := Function.update r.inUse addr true }

/-- `pm_register_shell_uart_timer`, which needs a transport that polls. -/
def pmRegisterShellUartTimer (usable : Bool) (rxTimer : Id) (r : Registry Id) : Registry Id :=
  if usable then pmTimerRegister (some .shell) (some rxTimer) r else r

/-- `k_free`. -/
def kFree (mt : Entry) (r : Registry Id) : Registry Id :=
  match mt with
  | .shell => r
  | .heap addr => { r with inUse := Function.update r.inUse addr false }

/-- `pm_timer_unregister`, with the entry that is freed. Without a result the walk goes on. -/
def pmTimerUnregister (fuel : Nat) (timer : Option Id) (r : Registry Id) :
    Option (Registry Id × Option Entry) :=
  match find r.list.next (fun mt => r.timer mt = timer) fuel none r.list.head with
  | none => none
  | some (_, none) => some (r, none)
  | some (_, some mt) =>
    (r.list.findAndRemove fuel mt).map fun list => (kFree mt { r with list := list }, some mt)

/-- `pm_timer_unregister_internal`. -/
def pmTimerUnregisterInternal (fuel : Nat) (timer : Option Id) (r : Registry Id) :
    Option (Registry Id × Option Entry) :=
  if timer.isNone then some (r, none) else pmTimerUnregister fuel timer r

/-! ## Runs -/

inductive Call (Id : Type)
  | registerInternal (name : Option CString) (timer : Option Id) (block : Option Nat)
  | registerShell (usable : Bool)
  | unregister (timer : Option Id)
  | unregisterInternal (timer : Option Id)

/-- A call that returns, and what it frees. -/
structure Moment (Id : Type) where
  before : Registry Id
  call : Call Id
  freed : Option Entry
  after : Registry Id

/-- A block from the heap is not in use. -/
inductive Moment.Happens (rxTimer : Id) : Moment Id → Prop
  | registerInternal (r : Registry Id) (name : Option CString) (timer : Option Id)
      {block : Option Nat} (free : ∀ addr, block = some addr → r.inUse addr = false) :
      Happens rxTimer ⟨r, .registerInternal name timer block, none,
        pmTimerRegisterInternal name timer block r⟩
  | registerShell (r : Registry Id) (usable : Bool) :
      Happens rxTimer ⟨r, .registerShell usable, none, pmRegisterShellUartTimer usable rxTimer r⟩
  | unregister {r after : Registry Id} {timer : Option Id} {freed : Option Entry} (fuel : Nat)
      (returns : pmTimerUnregister fuel timer r = some (after, freed)) :
      Happens rxTimer ⟨r, .unregister timer, freed, after⟩
  | unregisterInternal {r after : Registry Id} {timer : Option Id} {freed : Option Entry}
      (fuel : Nat) (returns : pmTimerUnregisterInternal fuel timer r = some (after, freed)) :
      Happens rxTimer ⟨r, .unregisterInternal timer, freed, after⟩

/-- The calls since boot, the last one first. -/
inductive Run (rxTimer : Id) : List (Moment Id) → Registry Id → Prop
  | boot : Run rxTimer [] boot
  | next {past : List (Moment Id)} {m : Moment Id} (run : Run rxTimer past m.before)
      (happens : m.Happens rxTimer) : Run rxTimer (m :: past) m.after

/-! ## What is asked of a call -/

/-- The entries that shall be in the list after a call, `mts` being those before. -/
def Moment.Leaves (m : Moment Id) (mts : List Entry) (mt : Entry) : Prop :=
  match m.call with
  | .registerInternal name timer block =>
    mt ∈ mts ∨ name.isSome ∧ timer.isSome ∧ ∃ addr, block = some addr ∧ mt = .heap addr
  | .registerShell usable => mt ∈ mts ∨ usable ∧ mt = .shell
  | .unregister timer | .unregisterInternal timer => mt ∈ mts ∧ m.before.timer mt ≠ timer

/-- The list is one of the right entries, each of them once, and what is freed is from the
heap. -/
structure Moment.Proper (m : Moment Id) : Prop where
  list : ∃ mts mts', Represents m.before.list mts ∧ Represents m.after.list mts' ∧
    ∀ mt, mt ∈ mts' ↔ m.Leaves mts mt
  freed : ∀ mt, m.freed = some mt → ∃ addr, mt = .heap addr

/-- The shell's entry is not registered while it is in the list, and a timer that is
unregistered has one entry at most, from the heap. -/
def Moment.Orderly (m : Moment Id) : Prop :=
  ∀ mts, Represents m.before.list mts →
    match m.call with
    | .registerInternal _ _ _ => True
    | .registerShell usable => usable → Entry.shell ∉ mts
    | .unregister timer | .unregisterInternal timer =>
      ∀ mt ∈ mts, m.before.timer mt = timer →
        mt ≠ .shell ∧ ∀ mt' ∈ mts, m.before.timer mt' = timer → mt' = mt

/-- A list of entries that are in use, with a timer each. -/
structure Intact (r : Registry Id) (mts : List Entry) : Prop where
  list : Represents r.list mts
  inUse : ∀ addr, Entry.heap addr ∈ mts → r.inUse addr = true
  timer : ∀ mt ∈ mts, r.timer mt ≠ none

omit [DecidableEq Id] in
theorem intact_boot : Intact (boot : Registry Id) [] := ⟨represents_empty, nofun, nofun⟩

variable {rxTimer t : Id} {timer : Option Id} {r after : Registry Id} {mts : List Entry} {mt : Entry}
  {freed : Option Entry} {fuel : Nat}

omit [DecidableEq Id] in
theorem Intact.unique {mts' : List Entry} (intact : Intact r mts) (rep : Represents r.list mts') :
    mts' = mts :=
  rep.unique intact.list

/-! ## Registering -/

omit [DecidableEq Id] in
theorem Intact.register (intact : Intact r mts) (fresh : mt ∉ mts) {inUse : Nat → Bool}
    (kept : ∀ addr, r.inUse addr = true ∨ mt = .heap addr → inUse addr = true) :
    Intact (pmTimerRegister (some mt) (some t) { r with inUse := inUse }) (mts ++ [mt]) := by
  constructor
  · exact append_fresh intact.list fresh
  · intro addr mem
    rw [List.mem_append, List.mem_singleton] at mem
    exact kept addr (mem.imp (intact.inUse addr) Eq.symm)
  · intro x mem
    change Function.update r.timer mt (some t) x ≠ none
    rw [List.mem_append, List.mem_singleton] at mem
    obtain old | rfl := mem
    · have other : x ≠ mt := fun same => fresh (same ▸ old)
      rw [Function.update_of_ne other]
      exact intact.timer x old
    · rw [Function.update_self]
      exact Option.some_ne_none t

omit [DecidableEq Id] in
theorem registerInternal_intact {name : Option CString} {block : Option Nat}
    (intact : Intact r mts) (free : ∀ addr, block = some addr → r.inUse addr = false) :
    ∃ mts', Intact (pmTimerRegisterInternal name timer block r) mts' ∧
      ∀ mt, mt ∈ mts' ↔ mt ∈ mts ∨
        name.isSome ∧ timer.isSome ∧ ∃ addr, block = some addr ∧ mt = .heap addr := by
  cases name with
  | none => exact ⟨mts, intact, by simp⟩
  | some name =>
    cases timer with
    | none => exact ⟨mts, intact, by simp⟩
    | some t =>
      cases block with
      | none => exact ⟨mts, intact, by simp⟩
      | some addr =>
        have fresh : Entry.heap addr ∉ mts := fun mem => by
          have := intact.inUse addr mem
          rw [free addr rfl] at this
          cases this
        refine ⟨mts ++ [.heap addr], ?_, by simp⟩
        apply intact.register fresh
        rintro a (used | same)
        · by_cases eq : a = addr
          · rw [eq, Function.update_self]
          · rw [Function.update_of_ne eq, used]
        · cases same
          exact Function.update_self ..

/-! ## Unregistering -/

omit [DecidableEq Id] in
theorem Intact.remove {pre post : List Entry} (intact : Intact r (pre ++ mt :: post)) {list : SList Entry}
    (rep : Represents list (pre ++ post)) : Intact (kFree mt { r with list := list }) (pre ++ post) := by
  have gone : mt ∉ pre ++ post := by
    rw [List.mem_append, not_or]
    exact not_mem_around intact.list.nodup
  have part {x : Entry} (mem : x ∈ pre ++ post) : x ∈ pre ++ mt :: post := by
    rw [List.mem_append] at mem ⊢
    exact mem.imp_right (.tail _)
  cases mt with
  | shell =>
    exact ⟨rep, fun addr mem => intact.inUse addr (part mem), fun x mem => intact.timer x (part mem)⟩
  | heap freed =>
    refine ⟨rep, ?_, fun x mem => intact.timer x (part mem)⟩
    intro addr mem
    have other : addr ≠ freed := by
      rintro rfl
      exact gone mem
    exact (Function.update_of_ne other ..).trans (intact.inUse addr (part mem))

theorem unregister_cases (intact : Intact r mts)
    (returns : pmTimerUnregister fuel timer r = some (after, freed)) :
    (after = r ∧ freed = none ∧ ∀ mt ∈ mts, r.timer mt ≠ timer) ∨
      ∃ pre mt post, mts = pre ++ mt :: post ∧ r.timer mt = timer ∧ freed = some mt ∧
        Intact after (pre ++ post) := by
  rw [pmTimerUnregister] at returns
  split at returns
  next => cases returns
  next prev found =>
    cases returns
    obtain ⟨-, none⟩ | ⟨_, _, _, _, _, _, impossible⟩ := find_first intact.list.seg found
    · exact .inl ⟨rfl, rfl, fun mt mem => of_decide_eq_false (none mt mem)⟩
    · cases impossible
  next prev mt found =>
    obtain ⟨impossible, -⟩ | ⟨pre, x, post, rfl, -, here, same⟩ := find_first intact.list.seg found
    · cases impossible
    · cases same
      obtain ⟨list, removed, eq⟩ := Option.map_eq_some_iff.mp returns
      cases eq
      have rep := findAndRemove_represents intact.list removed
      exact .inr ⟨pre, mt, post, rfl, of_decide_eq_true here, rfl, intact.remove rep⟩

/-! ## One call -/

omit [DecidableEq Id] in
/-- What is asked of a call, from the entries before and after it. -/
theorem proper_iff {m : Moment Id} {mts' : List Entry} (intact : Intact m.before mts)
    (intact' : Intact m.after mts') : m.Proper ↔
      (∀ mt, mt ∈ mts' ↔ m.Leaves mts mt) ∧ ∀ mt, m.freed = some mt → ∃ addr, mt = .heap addr := by
  constructor
  · rintro ⟨⟨ns, ns', rep, rep', leaves⟩, freed⟩
    cases intact.unique rep
    cases intact'.unique rep'
    exact ⟨leaves, freed⟩
  · rintro ⟨leaves, freed⟩
    exact ⟨⟨mts, mts', intact.list, intact'.list, leaves⟩, freed⟩

theorem unregister_proper_iff {m : Moment Id} (intact : Intact m.before mts)
    (returns : pmTimerUnregister fuel timer m.before = some (m.after, m.freed))
    (leaves : ∀ mts mt, m.Leaves mts mt ↔ mt ∈ mts ∧ m.before.timer mt ≠ timer) :
    (m.Proper ↔ ∀ mt ∈ mts, m.before.timer mt = timer →
      mt ≠ .shell ∧ ∀ mt' ∈ mts, m.before.timer mt' = timer → mt' = mt) ∧
      ∃ mts', Intact m.after mts' := by
  obtain ⟨same, freed, none⟩ | ⟨pre, mt, post, rfl, found, freed, intact'⟩ :=
    unregister_cases intact returns
  · have intact' : Intact m.after mts := same ▸ intact
    refine ⟨?_, mts, intact'⟩
    rw [proper_iff intact intact', freed]
    constructor
    · exact fun _ mt mem timer => absurd timer (none mt mem)
    · intro _
      refine ⟨fun mt => ?_, nofun⟩
      rw [leaves]
      exact ⟨fun mem => ⟨mem, none mt mem⟩, And.left⟩
  · refine ⟨?_, _, intact'⟩
    rw [proper_iff intact intact', freed]
    obtain ⟨before, behind⟩ := not_mem_around intact.list.nodup
    have here : mt ∈ pre ++ mt :: post := List.mem_append_right _ (List.mem_cons_self ..)
    have split (x : Entry) : x ∈ pre ++ mt :: post ↔ x = mt ∨ x ∈ pre ++ post := by
      rw [List.mem_append, List.mem_append, List.mem_cons]
      exact or_left_comm
    constructor
    · rintro ⟨all, heap⟩ x mem hx
      have alone (y : Entry) (mem : y ∈ pre ++ mt :: post) (hy : m.before.timer y = timer) :
          y = mt := by
        obtain same | rest := (split y).mp mem
        · exact same
        · exact absurd hy ((leaves _ y).mp ((all y).mp rest)).2
      cases alone x mem hx
      obtain ⟨addr, eq⟩ := heap mt rfl
      exact ⟨by rw [eq]; exact nofun, alone⟩
    · intro orderly
      obtain ⟨heap, alone⟩ := orderly mt here found
      constructor
      · intro x
        rw [leaves, split]
        constructor
        · intro rest
          refine ⟨.inr rest, fun hx => ?_⟩
          cases alone x ((split x).mpr (.inr rest)) hx
          exact (List.mem_append.mp rest).elim before behind
        · rintro ⟨rfl | rest, hx⟩
          · exact absurd found hx
          · exact rest
      · rintro x ⟨⟩
        cases mt with
        | shell => exact absurd rfl heap
        | heap addr => exact ⟨addr, rfl⟩

omit [DecidableEq Id] in
theorem orderly_of {m : Moment Id} (intact : Intact m.before mts) : m.Orderly ↔
    match m.call with
    | .registerInternal _ _ _ => True
    | .registerShell usable => usable → Entry.shell ∉ mts
    | .unregister timer | .unregisterInternal timer =>
      ∀ mt ∈ mts, m.before.timer mt = timer →
        mt ≠ .shell ∧ ∀ mt' ∈ mts, m.before.timer mt' = timer → mt' = mt := by
  constructor
  · exact fun orderly => orderly mts intact.list
  · intro orderly ns rep
    cases intact.unique rep
    exact orderly

/-- From an intact list, a call is proper exactly if it is orderly, and then the list is intact
after it. -/
theorem Moment.Happens.proper_iff {m : Moment Id} (happens : m.Happens rxTimer)
    (intact : Intact m.before mts) :
    (m.Proper ↔ m.Orderly) ∧ (m.Orderly → ∃ mts', Intact m.after mts') := by
  rw [orderly_of intact]
  cases happens with
  | registerInternal r name timer free =>
    obtain ⟨mts', intact', leaves⟩ := registerInternal_intact intact free
    refine ⟨?_, fun _ => ⟨mts', intact'⟩⟩
    rw [PmTimers.proper_iff intact intact']
    exact iff_of_true ⟨leaves, nofun⟩ trivial
  | registerShell r usable =>
    cases usable with
    | false =>
      refine ⟨?_, fun _ => ⟨mts, intact⟩⟩
      rw [PmTimers.proper_iff intact intact]
      refine iff_of_true ⟨fun mt => ?_, nofun⟩ nofun
      simp [Moment.Leaves]
    | true =>
      by_cases linked : Entry.shell ∈ mts
      · have never : ¬∀ _ : true = true, Entry.shell ∉ mts := fun h => h rfl linked
        refine ⟨iff_of_false ?_ never, fun h => absurd h never⟩
        rintro ⟨⟨ns, ns', rep, rep', leaves⟩, -⟩
        cases intact.unique rep
        apply append_linked intact.list linked
        exact ⟨ns', rep', fun mt mem => (leaves mt).mpr (.inl mem)⟩
      · have intact' := @Intact.register Id rxTimer r mts .shell intact linked r.inUse fun addr used =>
          used.resolve_right nofun
        refine ⟨?_, fun _ => ⟨_, intact'⟩⟩
        rw [PmTimers.proper_iff intact intact']
        refine iff_of_true ⟨fun mt => ?_, nofun⟩ fun _ => linked
        simp [Moment.Leaves]
  | unregister fuel returns =>
    obtain ⟨iff, intact'⟩ := unregister_proper_iff intact returns fun _ _ => Iff.rfl
    exact ⟨iff, fun _ => intact'⟩
  | @unregisterInternal r after timer freed fuel returns =>
    cases timer with
    | none =>
      cases returns
      refine ⟨?_, fun _ => ⟨mts, intact⟩⟩
      rw [PmTimers.proper_iff intact intact]
      refine iff_of_true ⟨fun mt => ?_, nofun⟩ fun mt mem null => absurd null (intact.timer mt mem)
      exact ⟨fun mem => ⟨mem, intact.timer mt mem⟩, And.left⟩
    | some t =>
      obtain ⟨iff, intact'⟩ := unregister_proper_iff intact returns fun _ _ => Iff.rfl
      exact ⟨iff, fun _ => intact'⟩

/-! ## Runs of calls -/

theorem Run.intact {past : List (Moment Id)} (run : Run rxTimer past r)
    (orderly : ∀ m ∈ past, m.Orderly) : ∃ mts, Intact r mts := by
  induction run with
  | boot => exact ⟨[], intact_boot⟩
  | next _ happens ih =>
    obtain ⟨here, earlier⟩ := List.forall_mem_cons.mp orderly
    obtain ⟨mts, intact⟩ := ih earlier
    exact (happens.proper_iff intact).2 here

/-- Over any calls since boot, each leaves the right list and frees from the heap only,
exactly if each is orderly. -/
theorem managed_timers_iff {past : List (Moment Id)} (run : Run rxTimer past r) :
    (∀ m ∈ past, m.Proper) ↔ ∀ m ∈ past, m.Orderly := by
  induction run with
  | boot => simp
  | next run happens ih =>
    rw [List.forall_mem_cons, List.forall_mem_cons, ih, and_congr_left_iff]
    intro earlier
    obtain ⟨mts, intact⟩ := run.intact earlier
    exact (happens.proper_iff intact).1

/-- The name `t`. -/
def timerName : CString := ⟨[0x74], by decide⟩

/-- After boot, with timer 5 registered in block 0. -/
def oneTimer : Registry Nat := pmTimerRegisterInternal (some timerName) (some 5) (some 0) boot

/-- And the shell's timer. -/
def bothTimers : Registry Nat := pmRegisterShellUartTimer true 0 oneTimer

theorem oneTimer_list : Represents oneTimer.list [.heap 0] :=
  append_fresh represents_empty List.not_mem_nil

theorem bothTimers_list : Represents bothTimers.list [.heap 0, .shell] :=
  append_fresh oneTimer_list (by decide)

/-- Timer 5 and the shell's are registered; timer 5 is unregistered and registered again. -/
theorem managed_timers_again : ∃ past r, Run (0 : Nat) past r ∧
    past.map (·.call) = [.registerInternal (some timerName) (some 5) (some 0), .unregister (some 5),
      .registerShell true, .registerInternal (some timerName) (some 5) (some 0)] ∧
    past.map (·.freed) = [none, some (.heap 0), none, none] ∧ ∀ m ∈ past, m.Proper := by
  obtain ⟨back, returns, free⟩ : ∃ back, pmTimerUnregister 4 (some 5) bothTimers =
      some (back, some (.heap 0)) ∧ back.inUse 0 = false := ⟨_, rfl, rfl⟩
  have first : Moment.Happens (0 : Nat) ⟨boot, _, none, oneTimer⟩ :=
    .registerInternal boot (some timerName) (some 5) fun _ _ => rfl
  have second : Moment.Happens (0 : Nat) ⟨oneTimer, _, none, bothTimers⟩ :=
    .registerShell oneTimer true
  have third : Moment.Happens (0 : Nat) ⟨bothTimers, _, _, back⟩ := .unregister 4 returns
  have fourth : Moment.Happens (0 : Nat) ⟨back, .registerInternal _ _ (some 0), none, _⟩ :=
    .registerInternal back (some timerName) (some 5) fun _ same => by
      cases same
      exact free
  have run := Run.next (.next (.next (.next .boot first) second) third) fourth
  refine ⟨_, _, run, rfl, rfl, (managed_timers_iff run).mpr ?_⟩
  simp only [List.forall_mem_cons]
  refine ⟨fun _ _ => trivial, ?_, ?_, fun _ _ => trivial, List.forall_mem_nil _⟩
  · intro mts rep
    cases rep.unique bothTimers_list
    show ∀ mt ∈ [.heap 0, .shell], bothTimers.timer mt = some 5 →
      mt ≠ .shell ∧ ∀ mt' ∈ [.heap 0, .shell], bothTimers.timer mt' = some 5 → mt' = mt
    decide
  · intro mts rep _
    cases rep.unique oneTimer_list
    decide

/-- After boot, with the shell's timer registered. -/
def withShell : Registry Nat := pmRegisterShellUartTimer true 0 boot

/-- The shell's timer is registered twice, and the list is a cycle. -/
theorem shell_timer_twice : ¬∀ (rxTimer : Nat) past r, Run rxTimer past r →
    ∀ m ∈ past, m.Proper := by
  intro proper
  have run : Run 0 _ _ := .next (.next .boot (.registerShell boot true)) (.registerShell withShell true)
  obtain ⟨⟨mts, mts', rep, rep', leaves⟩, -⟩ := proper 0 _ _ run _ (List.mem_cons_self ..)
  have single : Represents withShell.list [.shell] := append_fresh represents_empty List.not_mem_nil
  cases rep.unique single
  apply append_linked single (List.mem_singleton_self Entry.shell)
  exact ⟨mts', rep', fun mt mem => (leaves mt).mpr (.inl mem)⟩

end Qapp.PmTimers
