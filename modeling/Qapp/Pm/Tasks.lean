import Mathlib.Data.List.Basic
import Mathlib.Logic.Function.Basic
import Qapp.Lib.CString

/-!
# Default tasks around sleep

The table of `pm_timer.c` that tells which threads are the system's own, with one name in
each slot, and the threads that are suspended and resumed by it.
-/

namespace Qapp.Pm
open CString

/-- `hash_table`, by slot. -/
abbrev HashTable := Nat → Option CString

/-- `str_hash`, modulo `HASH_SIZE`. -/
def strHash (s : CString) : Nat :=
  (s.chars.foldl (fun h c => h * 31 ^^^ c.toUInt32) (0 : UInt32) % 32).toNat

/-- The one task whose slot a later one takes. -/
def mcumgrSmp : CString := ⟨ascii "mcumgr smp", by decide⟩

def osDefaultTasks : List CString :=
  [mcumgrSmp, ⟨ascii "smp_udp4", by decide⟩, ⟨ascii "zperf_work_q", by decide⟩,
    ⟨ascii "conn_mgr_monitor", by decide⟩, ⟨ascii "net_socket_service", by decide⟩,
    ⟨ascii "rx_q[0]", by decide⟩, ⟨ascii "net_mgmt", by decide⟩, ⟨ascii "tcp_work", by decide⟩]

/-- The loop of `init_os_default_tasks`. -/
def enterTasks (tasks : List CString) (table : HashTable) : HashTable :=
  tasks.foldl (fun t name => Function.update t (strHash name) (some name)) table

/-- The table after `init_os_default_tasks`, in static memory before. -/
def initOsDefaultTasks : HashTable := enterTasks osDefaultTasks fun _ => none

/-- `if_os_default_tasks`; `none` is NULL. -/
def ifOsDefaultTasks (table : HashTable) : Option CString → Bool
  | none => false
  | some name =>
    match table (strHash name) with
    | some entry => entry = name
    | none => false

structure Thread where
  name : Option CString
  suspended : Bool
  deriving DecidableEq

/-- `suspend_thread_cb`. -/
def suspendThreadCb (table : HashTable) (t : Thread) : Thread :=
  if ifOsDefaultTasks table t.name then { t with suspended := true } else t

/-- `resume_thread_cb`. -/
def resumeThreadCb (table : HashTable) (t : Thread) : Thread :=
  if ifOsDefaultTasks table t.name then { t with suspended := false } else t

/-- `suspend_all_os_default_tasks`, as `on_idle_pre_sleep` calls it. -/
def suspendAllOsDefaultTasks (table : HashTable) (threads : List Thread) : List Thread :=
  threads.map (suspendThreadCb table)

/-- `resume_all_os_default_tasks`, as `on_idle_post_sleep` calls it if they were suspended. -/
def resumeAllOsDefaultTasks (table : HashTable) (threads : List Thread) : List Thread :=
  threads.map (resumeThreadCb table)

def Thread.Default (t : Thread) : Prop := ∃ name ∈ osDefaultTasks, t.name = some name

/-- Asleep, the default tasks are suspended and the others as before; awake, they run. -/
structure SuspendsDefaults (threads : List Thread) : Prop where
  asleep : ∀ (i : Nat) (t : Thread), threads[i]? = some t →
    ∃ u : Thread, (suspendAllOsDefaultTasks initOsDefaultTasks threads)[i]? = some u ∧
      (u.suspended ↔ t.Default ∨ t.suspended)
  awake : ∀ (i : Nat) (t : Thread), threads[i]? = some t →
    ∃ u : Thread, (resumeAllOsDefaultTasks initOsDefaultTasks
      (suspendAllOsDefaultTasks initOsDefaultTasks threads))[i]? = some u ∧
      (u.suspended ↔ ¬t.Default ∧ t.suspended)

/-! ## The table -/

/-- Whatever stands in the table has been entered. -/
theorem enterTasks_from {tasks : List CString} {table : HashTable} {P : CString → Prop}
    (old : ∀ h name, table h = some name → P name) (new : ∀ name ∈ tasks, P name) (h : Nat)
    (name : CString) (found : enterTasks tasks table h = some name) : P name := by
  induction tasks generalizing table with
  | nil => exact old h name found
  | cons task tasks ih =>
    apply ih _ (fun n mem => new n (.tail _ mem)) found
    intro k n entry
    change Function.update table (strHash task) (some task) k = some n at entry
    rw [Function.update_apply] at entry
    split at entry
    · cases entry
      exact new _ (.head _)
    · exact old k n entry

/-- Every listed task but the first is found, and nothing else. -/
theorem ifOsDefaultTasks_iff (name : CString) :
    ifOsDefaultTasks initOsDefaultTasks (some name) = true ↔
      name ∈ osDefaultTasks ∧ name ≠ mcumgrSmp := by
  constructor
  · intro found
    constructor
    · have entry : initOsDefaultTasks (strHash name) = some name := by
        simp only [ifOsDefaultTasks] at found
        split at found
        next entry slot => rw [slot, of_decide_eq_true found]
        next => cases found
      exact enterTasks_from (fun _ _ h => nomatch h) (fun _ h => h) _ _ entry
    · rintro rfl
      exact absurd found (by decide)
  · rintro ⟨listed, other⟩
    have rest : osDefaultTasks.tail.all fun n => ifOsDefaultTasks initOsDefaultTasks (some n) := by
      decide
    cases listed with
    | head => exact absurd rfl other
    | tail _ mem => exact List.all_eq_true.mp rest name mem

theorem Thread.default_iff {t : Thread} (other : t.name ≠ some mcumgrSmp) :
    ifOsDefaultTasks initOsDefaultTasks t.name = true ↔ t.Default := by
  constructor
  · intro found
    cases eq : t.name with
    | none =>
      rw [eq] at found
      cases found
    | some name =>
      rw [eq] at found
      exact ⟨name, ((ifOsDefaultTasks_iff name).mp found).1, eq⟩
  · rintro ⟨name, listed, eq⟩
    rw [eq] at other ⊢
    exact (ifOsDefaultTasks_iff name).mpr ⟨listed, fun h => other (congrArg some h)⟩

theorem suspendsDefaults_iff (threads : List Thread) :
    SuspendsDefaults threads ↔ ∀ t ∈ threads, t.name ≠ some mcumgrSmp := by
  constructor
  · rintro ⟨asleep, awake⟩ t mem name
    obtain ⟨i, at_⟩ := List.mem_iff_getElem?.mp mem
    have ignored : ifOsDefaultTasks initOsDefaultTasks t.name = false := by
      rw [name]
      decide
    have default : t.Default := ⟨mcumgrSmp, .head _, name⟩
    obtain ⟨u, same, down⟩ := asleep i t at_
    obtain ⟨v, again, up⟩ := awake i t at_
    simp only [suspendAllOsDefaultTasks, resumeAllOsDefaultTasks, List.getElem?_map, at_,
      Option.map_some, suspendThreadCb, resumeThreadCb, ignored, Bool.false_eq_true, if_false,
      Option.some.injEq] at same again
    subst same again
    exact (up.mp (down.mpr (.inl default))).1 default
  · intro others
    constructor <;> intro i t at_ <;>
      have found := Thread.default_iff (others t (List.mem_of_getElem? at_))
    · refine ⟨suspendThreadCb initOsDefaultTasks t, ?_, ?_⟩
      · rw [suspendAllOsDefaultTasks, List.getElem?_map, at_, Option.map_some]
      · unfold suspendThreadCb
        split <;> simp_all
    · refine ⟨resumeThreadCb initOsDefaultTasks (suspendThreadCb initOsDefaultTasks t), ?_, ?_⟩
      · rw [suspendAllOsDefaultTasks, resumeAllOsDefaultTasks, List.getElem?_map,
          List.getElem?_map, at_, Option.map_some, Option.map_some]
      · unfold resumeThreadCb suspendThreadCb
        split <;> simp_all

/-- The table stands for the list, and sleep suspends and resumes the default tasks and no
other thread, exactly as far as no name asked for is the one that lost its slot. -/
theorem default_tasks_iff (name : CString) (threads : List Thread) :
    ((ifOsDefaultTasks initOsDefaultTasks (some name) = true ↔ name ∈ osDefaultTasks) ↔
      name ≠ mcumgrSmp) ∧
    (SuspendsDefaults threads ↔ ∀ t ∈ threads, t.name ≠ some mcumgrSmp) := by
  refine ⟨?_, suspendsDefaults_iff threads⟩
  rw [ifOsDefaultTasks_iff]
  constructor
  · rintro same rfl
    exact (same.mpr (.head _)).2 rfl
  · intro other
    exact and_iff_left other

/-- The first task of the list is not found. -/
theorem default_task_missed : ¬∀ name,
    ifOsDefaultTasks initOsDefaultTasks (some name) = true ↔ name ∈ osDefaultTasks := by
  intro same
  exact absurd ((same mcumgrSmp).mpr (.head _)) (by decide)

end Qapp.Pm
