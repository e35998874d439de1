import Qapp.Fw.Extent

/-!
# The end of an image set

`fw_upgrade_get_imageSet_end_addr` walks through a table with partition handles, one more each
time, and takes every failure to get the next one for the end of the table.
-/

namespace Qapp.Fw
open ByteMem Traced

/-- The end of an entry as the code adds it up; SBL counts as 0. -/
def end32 (m : Mem) (fwdIdx i : Nat) : Nat := ((fwdEntry m fwdIdx i).client fwdIdx i).endAddr.getD 0

/-- Start and size of a used entry that is not SBL, in exact numbers. -/
def usedEnd (m : Mem) (fwdIdx i : Nat) : Option Nat :=
  let t := fwdEntry m fwdIdx i
  if t.imageId ≠ imageUnused ∧ t.imageId ≠ sblImgId then
    some ((t.client fwdIdx i).imgStart + (t.client fwdIdx i).imgSize)
  else none

/-- The greatest end of the used entries, 0 if there are only SBL entries. -/
structure IsMaxEnd (m : Mem) (fwdIdx v : Nat) : Prop where
  bound : ∀ i, i < maxImages → ∀ x, usedEnd m fwdIdx i = some x → x ≤ v
  reached : (∃ i, i < maxImages ∧ usedEnd m fwdIdx i = some v) ∨
    v = 0 ∧ ∀ i, i < maxImages → usedEnd m fwdIdx i = none

/-- No handle is open that was not, and the open ones are as they were. -/
def HandlesKept (s t : St) : Prop :=
  ∀ k, (t.handles k).refCount = (s.handles k).refCount ∧
    (0 < (s.handles k).refCount → t.handles k = s.handles k)

def TwoFree (s : St) : Prop :=
  ∃ j k, j ≠ k ∧ j < maxHandles ∧ k < maxHandles ∧
    (s.handles j).refCount = 0 ∧ (s.handles k).refCount = 0

/-- The walk ends with entry `j`: it is the last one, an unused one follows, the read of the
table for the next one fails (two reads come before), or there is no handle for it. -/
def Stops (s : St) (fwdIdx j : Nat) : Prop :=
  j + 1 = maxImages ∨ (fwdEntry s.flash fwdIdx (j + 1)).imageId = imageUnused ∨
    s.readFaults.getD (j + 2) none ≠ none ∨ ¬TwoFree s

def Reached (s : St) (fwdIdx i : Nat) : Prop := ∀ j, j < i → ¬Stops s fwdIdx j

/-- An entry the walk gets to has the greatest end, and entry 0, if it is unused, no greater one. -/
def FindsEnd (s : St) (fwdIdx : Nat) : Prop :=
  ∃ i, Reached s fwdIdx i ∧ IsMaxEnd s.flash fwdIdx (end32 s.flash fwdIdx i) ∧
    ((fwdEntry s.flash fwdIdx 0).imageId = imageUnused →
      end32 s.flash fwdIdx 0 ≤ end32 s.flash fwdIdx i)

section Ends
variable {m : Mem} {fwdIdx i v : Nat} {s : St}

theorem Reached.lt (reached : Reached s fwdIdx i) : i < maxImages := by
  by_contra beyond
  exact reached (maxImages - 1) (by unfold maxImages at *; omega) (.inl (by decide))

theorem Reached.mono (reached : Reached s fwdIdx i) {j : Nat} (le : j ≤ i) : Reached s fwdIdx j :=
  fun k lt => reached k (by omega)

/-- Every entry behind the first that the walk gets to is used. -/
theorem Reached.used (reached : Reached s fwdIdx (i + 1)) :
    (fwdEntry s.flash fwdIdx (i + 1)).imageId ≠ imageUnused := by
  intro unused
  exact reached i (Nat.lt_succ_self i) (.inr (.inl unused))

/-- In 32 bits an end is no greater than it is. -/
theorem end32_le (used : (fwdEntry m fwdIdx i).imageId ≠ imageUnused) (lt : i < maxImages)
    (max : IsMaxEnd m fwdIdx v) : end32 m fwdIdx i ≤ v := by
  unfold end32 Client.endAddr
  split
  next other =>
    have listed : usedEnd m fwdIdx i = some (((fwdEntry m fwdIdx i).client fwdIdx i).imgStart +
        ((fwdEntry m fwdIdx i).client fwdIdx i).imgSize) := if_pos ⟨used, other⟩
    exact Nat.le_trans (Nat.mod_le _ _) (max.bound i lt _ listed)
  next => exact Nat.zero_le v

/-- The maximum over the entries the walk gets to. -/
structure IsWalkMax (s : St) (fwdIdx v : Nat) : Prop where
  bound : ∀ i, Reached s fwdIdx i → end32 s.flash fwdIdx i ≤ v
  reached : ∃ i, Reached s fwdIdx i ∧ v = end32 s.flash fwdIdx i

theorem IsWalkMax.maxEnd_iff (walk : IsWalkMax s fwdIdx v) :
    IsMaxEnd s.flash fwdIdx v ↔ FindsEnd s fwdIdx := by
  constructor
  · intro max
    obtain ⟨i, reached, rfl⟩ := walk.reached
    exact ⟨i, reached, max, fun _ => walk.bound 0 (reached.mono (Nat.zero_le i))⟩
  · rintro ⟨i, reached, max, first⟩
    obtain ⟨j, reached', rfl⟩ := walk.reached
    have upper : end32 s.flash fwdIdx j ≤ end32 s.flash fwdIdx i := by
      cases j with
      | zero =>
        by_cases used : (fwdEntry s.flash fwdIdx 0).imageId = imageUnused
        · exact first used
        · exact end32_le used reached'.lt max
      | succ j => exact end32_le reached'.used reached'.lt max
    rw [Nat.le_antisymm upper (walk.bound i reached)]
    exact max

end Ends

/-! ## The walk -/

theorem HandlesKept.of_eq {s t : St} (same : t.handles = s.handles) : HandlesKept s t := by
  intro k
  rw [same]
  exact ⟨rfl, fun _ => rfl⟩

theorem releaseHandle_closes (k : Nat) (s : St) :
    ((releaseHandle k s).handles k).refCount = 0 :=
  congrArg Client.refCount (Function.update_self k _ s.handles)

theorem releaseHandle_other {j k : Nat} (ne : j ≠ k) (s : St) :
    (releaseHandle k s).handles j = s.handles j := Function.update_of_ne ne _ _

/-- The handle a table has kept closed. -/
theorem same_closed {c d : Client} (hc : c.refCount = 0) (hd : d.refCount = 0) :
    d.refCount = c.refCount ∧ (0 < c.refCount → d = c) := by
  constructor
  · rw [hc, hd]
  · intro used
    rw [hc] at used
    exact absurd used (Nat.lt_irrefl 0)

/-- The walk is at entry `i`, with `hdl` open for it and no other handle changed. One read is for
the magic number, one for each entry so far. -/
structure Walking (s : St) (fwdIdx i hdl : Nat) (t : St) : Prop where
  flash : t.flash = s.flash
  init : t.fuInitialized = true
  faults : t.readFaults = s.readFaults.drop (i + 2)
  slot : hdl < maxHandles
  free : (s.handles hdl).refCount = 0
  here : t.handles hdl = (fwdEntry s.flash fwdIdx i).client fwdIdx i
  other : ∀ k, k ≠ hdl → (t.handles k).refCount = (s.handles k).refCount ∧
    (0 < (s.handles k).refCount → t.handles k = s.handles k)

namespace Walking
variable {e : Env} {s t : St} {fwdIdx i hdl : Nat}

theorem released (walking : Walking s fwdIdx i hdl t) : HandlesKept s (releaseHandle hdl t) := by
  intro k
  by_cases same : k = hdl
  · subst same
    exact same_closed walking.free (releaseHandle_closes k t)
  · rw [releaseHandle_other same]
    exact walking.other k same

theorem valid (walking : Walking s fwdIdx i hdl t) : handleValid t (some hdl) = true := by
  have used : (t.handles hdl).refCount = 1 := by rw [walking.here]; rfl
  unfold handleValid
  simp only [Bool.and_eq_true, decide_eq_true_eq, used]
  exact ⟨walking.slot, Nat.one_pos⟩

theorem no_handle (walking : Walking s fwdIdx i hdl t) (none : freeHandle t = none) :
    ¬TwoFree s := by
  rintro ⟨j, k, ne, jlt, klt, jfree, kfree⟩
  have used : ∀ k, k < maxHandles → (t.handles k).refCount ≠ 0 := by
    intro k lt free
    have miss := List.find?_eq_none.mp none k (List.mem_range.mpr lt)
    exact miss (beq_iff_eq.mpr free)
  by_cases here : j = hdl
  · have other : k ≠ hdl := fun same => ne (here.trans same.symm)
    exact used k klt ((walking.other k other).1.trans kfree)
  · exact used j jlt ((walking.other j here).1.trans jfree)

theorem handle (walking : Walking s fwdIdx i hdl t) {k : Nat} (free : freeHandle t = some k) :
    k ≠ hdl ∧ k < maxHandles ∧ (s.handles k).refCount = 0 ∧ TwoFree s := by
  obtain ⟨lt, closed⟩ := freeHandle_some free
  have ne : k ≠ hdl := by
    rintro rfl
    rw [walking.here] at closed
    exact absurd closed Nat.one_ne_zero
  have spare := (walking.other k ne).1.symm.trans closed
  exact ⟨ne, lt, spare, k, hdl, ne, lt, walking.slot, spare, walking.free⟩

/-- The next entry is in the free handle, and the one before it has been released. -/
theorem next (walking : Walking s fwdIdx i hdl t) {k : Nat} (free : freeHandle t = some k) :
    Walking s fwdIdx (i + 1) k (releaseHandle hdl
      (setHandle k ((fwdEntry s.flash fwdIdx (i + 1)).client fwdIdx (i + 1)) (popReadFault t))) := by
  obtain ⟨ne, lt, spare, -⟩ := walking.handle free
  constructor
  · exact walking.flash
  · exact walking.init
  · change t.readFaults.tail = s.readFaults.drop (i + 1 + 2)
    rw [walking.faults, List.tail_drop]
  · exact lt
  · exact spare
  · exact (Function.update_of_ne ne _ _).trans (Function.update_self _ _ _)
  · intro j other
    by_cases same : j = hdl
    · subst same
      exact same_closed walking.free (releaseHandle_closes j _)
    · have kept : (setHandle k ((fwdEntry s.flash fwdIdx (i + 1)).client fwdIdx (i + 1))
          (popReadFault t)).handles j = t.handles j := Function.update_of_ne other _ _
      rw [releaseHandle_other same, kept]
      exact walking.other j same

end Walking

section Walk
variable {e : Env} {s t : St} {fwdIdx i hdl : Nat}

/-- Entry `i` is the last one of the walk and the handles stay, or the walk goes on. -/
theorem nextPartition_walks (inside : fwdAddr fwdIdx + 512 ≤ e.memSize) (lt : i < maxImages)
    (walking : Walking s fwdIdx i hdl t) :
    (Stops s fwdIdx i ∧ ∃ err u, nextPartition e hdl t = ⟨.error err, u, []⟩ ∧
      u.handles = t.handles) ∨
    (¬Stops s fwdIdx i ∧ ∃ k u, nextPartition e hdl t = ⟨.ok k, u, []⟩ ∧
      Walking s fwdIdx (i + 1) k (releaseHandle hdl u)) := by
  unfold nextPartition
  simp only [Act.bind_run, validation_run, walking.init, if_true, Act.andThen_ok, Act.read_run,
    Act.ite_run, walking.valid, Bool.not_true, Bool.false_eq_true, if_false, List.nil_append]
  have fault : t.readFault = s.readFaults.getD (i + 2) none := by
    unfold St.readFault
    rw [walking.faults, List.headD_eq_head?_getD, List.head?_drop, List.getD_eq_getElem?_getD]
  cases free : freeHandle t with
  | none => exact .inl ⟨.inr (.inr (.inr (walking.no_handle free))), _, t, rfl, rfl⟩
  | some k =>
    have fwd : (t.handles hdl).fwdIdx = fwdIdx := by rw [walking.here]; rfl
    have idx : (t.handles hdl).imgIdx = i := by rw [walking.here]; rfl
    obtain ⟨ok, m, run, read, held⟩ := flashRead_inside inside t
    simp only [fwd, idx, Act.bind_run, run, Act.andThen_ok, Act.ite_run, List.nil_append]
    cases ok with
    | false =>
      have failed : s.readFaults.getD (i + 2) none ≠ none := by
        rw [← fault]
        exact fun none => Bool.false_ne_true (read.mpr none)
      exact .inl ⟨.inr (.inr (.inl failed)), _, _, rfl, rfl⟩
    | true =>
      obtain rfl : m = s.flash := (held rfl).trans walking.flash
      have passed : s.readFaults.getD (i + 2) none = none := fault.symm.trans (read.mp rfl)
      simp only [Bool.not_true, Bool.false_eq_true, if_false]
      split
      next last => exact .inl ⟨.inl (by omega), _, _, rfl, rfl⟩
      next more =>
        split
        next unused => exact .inl ⟨.inr (.inl unused), _, _, rfl, rfl⟩
        next used =>
          refine .inr ⟨?_, k, _, rfl, walking.next free⟩
          rintro (last | unused | failed | handles)
          · omega
          · exact used unused
          · exact failed passed
          · exact handles (walking.handle free).2.2.2

/-- `v` is the maximum over the entries up to `i`. -/
structure IsMaxUpTo (s : St) (fwdIdx i v : Nat) : Prop where
  bound : ∀ j, j ≤ i → end32 s.flash fwdIdx j ≤ v
  reached : ∃ j, j ≤ i ∧ v = end32 s.flash fwdIdx j

theorem IsMaxUpTo.next {v : Nat} (upTo : IsMaxUpTo s fwdIdx i v) :
    IsMaxUpTo s fwdIdx (i + 1) (max v (end32 s.flash fwdIdx (i + 1))) := by
  constructor
  · intro j le
    obtain le | rfl := Nat.le_succ_iff.mp le
    · exact Nat.le_trans (upTo.bound j le) (Nat.le_max_left _ _)
    · exact Nat.le_max_right _ _
  · obtain ⟨j, le, eq⟩ := upTo.reached
    obtain less | more := Nat.le_total v (end32 s.flash fwdIdx (i + 1))
    · exact ⟨i + 1, Nat.le_refl _, Nat.max_eq_right less⟩
    · exact ⟨j, Nat.le_succ_of_le le, (Nat.max_eq_left more).trans eq⟩

/-- Where the walk stops, the maximum so far is that of the whole walk. -/
theorem IsMaxUpTo.walkMax {v : Nat} (upTo : IsMaxUpTo s fwdIdx i v) (reached : Reached s fwdIdx i)
    (stops : Stops s fwdIdx i) : IsWalkMax s fwdIdx v := by
  constructor
  · intro j onWay
    apply upTo.bound
    by_contra beyond
    exact onWay i (Nat.lt_of_not_le beyond) stops
  · obtain ⟨j, le, eq⟩ := upTo.reached
    exact ⟨j, reached.mono le, eq⟩

theorem endAddrLoop_walks (inside : fwdAddr fwdIdx + 512 ≤ e.memSize) (fuel : Nat) {v : Nat}
    (enough : maxImages ≤ i + fuel) (reached : Reached s fwdIdx i)
    (walking : Walking s fwdIdx i hdl t) (upTo : IsMaxUpTo s fwdIdx i v) :
    ∃ w, (endAddrLoop e fuel hdl v t).res = .ok w ∧
      HandlesKept s (endAddrLoop e fuel hdl v t).state ∧ IsWalkMax s fwdIdx w := by
  induction fuel generalizing i hdl t v with
  | zero =>
    have lt := reached.lt
    omega
  | succ fuel ih =>
    unfold endAddrLoop
    obtain ⟨stops, err, u, run, same⟩ | ⟨goes, k, u, run, walking'⟩ :=
      nextPartition_walks inside reached.lt walking
    · rw [Act.attempt_bind_run run]
      have closes : (releaseHandle hdl u).handles = (releaseHandle hdl t).handles := by
        unfold releaseHandle setHandle
        rw [same]
      refine ⟨v, rfl, ?_, upTo.walkMax reached stops⟩
      intro j
      change ((releaseHandle hdl u).handles j).refCount = _ ∧ (_ → (releaseHandle hdl u).handles j = _)
      rw [closes]
      exact walking.released j
    · rw [Act.attempt_bind_run run]
      have further : Reached s fwdIdx (i + 1) := by
        intro j lt
        obtain lt | rfl := Nat.lt_succ_iff_lt_or_eq.mp lt
        · exact reached j lt
        · exact goes
      have here : ((releaseHandle hdl u).handles k).endAddr.getD 0 =
          end32 s.flash fwdIdx (i + 1) := by
        rw [walking'.here]
        rfl
      have rest := ih (by omega) further walking' upTo.next
      rw [← here] at rest
      exact rest

/-- The walk begins at entry 0, or not at all. -/
theorem firstPartition_begins (e : Env) (fwdIdx : Nat) (t : St) :
    (∃ err u, firstPartition e fwdIdx t = ⟨.error err, u, []⟩ ∧ u.handles = t.handles) ∨
    (fwdAddr fwdIdx + 512 ≤ e.memSize ∧ t.fuInitialized = true ∧
      ∃ k, freeHandle t = some k ∧ firstPartition e fwdIdx t = ⟨.ok k,
        setHandle k ((fwdEntry t.flash fwdIdx 0).client fwdIdx 0) (popReadFault t), []⟩) := by
  unfold firstPartition
  simp only [Act.bind_run, validation_run]
  cases init : t.fuInitialized with
  | false => exact .inl ⟨_, t, rfl, rfl⟩
  | true =>
    simp only [if_true, Act.andThen_ok, Act.ite_run, List.nil_append]
    split
    next => exact .inl ⟨_, t, rfl, rfl⟩
    next =>
      simp only [Act.bind_run, Act.read_run, Act.andThen_ok, List.nil_append]
      cases free : freeHandle t with
      | none => exact .inl ⟨_, t, rfl, rfl⟩
      | some k =>
        by_cases inside : fwdAddr fwdIdx + 512 ≤ e.memSize
        · obtain ⟨ok, m, run, -, held⟩ := flashRead_inside inside t
          simp only [Act.bind_run, run, Act.andThen_ok, Act.ite_run, List.nil_append]
          cases ok with
          | false => exact .inl ⟨_, _, rfl, rfl⟩
          | true =>
            obtain rfl := held rfl
            simp only [Bool.not_true, Bool.false_eq_true, if_false]
            split
            next => exact .inl ⟨_, _, rfl, rfl⟩
            next => exact .inr ⟨inside, trivial, k, rfl, rfl⟩
        · have outside : flashRead e (fwdAddr fwdIdx) 512 t = ⟨.ok (false, e.junk), t, []⟩ :=
            flashRead_outside (Nat.not_le.mp inside) t
          simp only [Act.bind_run, outside, Act.andThen_ok, List.nil_append]
          exact .inl ⟨_, t, rfl, rfl⟩

theorem Walking.begins {k : Nat} (init : s.fuInitialized = true) (free : freeHandle s = some k) :
    Walking s fwdIdx 0 k
      (setHandle k ((fwdEntry s.flash fwdIdx 0).client fwdIdx 0) (popReadFault (popReadFault s))) := by
  obtain ⟨slot, closed⟩ := freeHandle_some free
  constructor
  · rfl
  · exact init
  · change s.readFaults.tail.tail = s.readFaults.drop (0 + 2)
    rw [← List.drop_one, ← List.drop_one, List.drop_drop]
  · exact slot
  · exact closed
  · exact Function.update_self _ _ _
  · intro j ne
    have kept : (setHandle k ((fwdEntry s.flash fwdIdx 0).client fwdIdx 0)
        (popReadFault (popReadFault s))).handles j = s.handles j := Function.update_of_ne ne _ _
    rw [kept]
    exact ⟨rfl, fun _ => rfl⟩

theorem IsMaxUpTo.zero : IsMaxUpTo s fwdIdx 0 (end32 s.flash fwdIdx 0) := by
  constructor
  · intro j le
    obtain rfl := Nat.le_zero.mp le
    exact Nat.le_refl _
  · exact ⟨0, Nat.le_refl 0, rfl⟩

theorem Reached.zero : Reached s fwdIdx 0 := fun _ lt => absurd lt (Nat.not_lt_zero _)

end Walk

/-- Reading the magic number uses up one fault, or the code is not ready. -/
theorem getFwdInfo_pops {e : Env} {fwdIdx : Nat} (inside : fwdAddr fwdIdx + 512 ≤ e.memSize)
    (s : St) : (∃ ok v, getFwdInfo e fwdIdx .magic 0 s = ⟨.ok (ok, v), popReadFault s, []⟩) ∨
      getFwdInfo e fwdIdx .magic 0 s = ⟨.ok (false, 0), s, []⟩ := by
  unfold getFwdInfo
  simp only [Act.bind_run, Act.read_run, Act.andThen_ok, Act.ite_run, List.nil_append]
  split
  next =>
    have magic : fwdAddr fwdIdx + FwdInfo.magic.offset + FwdInfo.magic.size ≤ e.memSize := by
      change fwdAddr fwdIdx + 0 + 4 ≤ e.memSize
      omega
    obtain ⟨ok, m, run, -⟩ := flashRead_inside magic s
    simp only [run, Act.andThen_ok, Act.pure_run, List.nil_append]
    exact .inl ⟨ok, _, rfl⟩
  next => exact .inr rfl

theorem getImageSetEndAddr_walks (e : Env) (s : St) (fwdIdx : Nat) :
    HandlesKept s (getImageSetEndAddr e fwdIdx s).state ∧
      ∀ v, (getImageSetEndAddr e fwdIdx s).res = .ok v → IsWalkMax s fwdIdx v := by
  unfold getImageSetEndAddr
  obtain ⟨ok, magic, t, read, reads, -⟩ := getFwdInfo_cases e fwdIdx .magic 0 s
  rw [Act.bind_run, read]
  simp only [Act.andThen_ok, List.nil_append, Act.ite_run]
  split
  next valid =>
    obtain ⟨err, u, run, same⟩ | ⟨inside, init, k, free, run⟩ := firstPartition_begins e fwdIdx t
    · rw [Act.bind_run, Act.orFail_error run]
      constructor
      · exact .of_eq (same.trans reads.handles)
      · rintro v ⟨⟩
    · have popped : t = popReadFault s := by
        obtain ⟨ok', v, read'⟩ | read' := getFwdInfo_pops inside s
        · rw [read] at read'
          exact congrArg Out.state read'
        · rw [read] at read'
          injection read' with res
          injection res with res
          injection res with _ zero
          rw [zero] at valid
          exact absurd valid (by decide)
      subst popped
      have walking := @Walking.begins s fwdIdx k init free
      obtain ⟨w, res, kept, max⟩ := endAddrLoop_walks inside maxImages (Nat.le_add_left _ _) .zero
        walking .zero
      rw [Act.bind_run, Act.orFail_ok run]
      have first : end32 s.flash fwdIdx 0 =
          ((setHandle k ((fwdEntry s.flash fwdIdx 0).client fwdIdx 0)
            (popReadFault (popReadFault s))).handles k).endAddr.getD 0 := by
        rw [walking.here]
        rfl
      rw [first] at res kept
      constructor
      · exact kept
      · intro v ok
        obtain rfl : w = v := Except.ok.inj (res.symm.trans ok)
        exact max
  next =>
    constructor
    · exact .of_eq reads.handles
    · rintro v ⟨⟩

/-- The handles stay as they were, and the end of the image set is right exactly if the walk gets
to an entry that has it. -/
theorem imageSet_end_iff (e : Env) (s : St) (fwdIdx : Nat) :
    HandlesKept s (getImageSetEndAddr e fwdIdx s).state ∧
      ∀ v, (getImageSetEndAddr e fwdIdx s).res = .ok v →
        (IsMaxEnd s.flash fwdIdx v ↔ FindsEnd s fwdIdx) := by
  obtain ⟨kept, walk⟩ := getImageSetEndAddr_walks e s fwdIdx
  exact ⟨kept, fun v ok => (walk v ok).maxEnd_iff⟩

def readyDevice : St := { plainDevice with fuInitialized := true }

/-- The read of the table for its second entry fails. -/
def faultyDevice : St := { readyDevice with readFaults := [none, none, some fun _ => 0] }

theorem ready_set_ends : (getImageSetEndAddr plainEnv 0 readyDevice).res = .ok (6 * blockSize) ∧
    (IsMaxEnd readyDevice.flash 0 (6 * blockSize) ↔ FindsEnd readyDevice 0) := by
  have found : (getImageSetEndAddr plainEnv 0 readyDevice).res = .ok (6 * blockSize) := by
    rfl
  exact ⟨found, (imageSet_end_iff plainEnv readyDevice 0).2 _ found⟩

/-- A failed read is taken for the end of the table: the end of the first entry is reported, and
the second one ends a block higher. -/
theorem read_fault_ends_walk :
    (getImageSetEndAddr plainEnv 0 faultyDevice).res = .ok (4 * blockSize) ∧
      ¬IsMaxEnd faultyDevice.flash 0 (4 * blockSize) := by
  constructor
  · rfl
  · intro max
    have second : usedEnd faultyDevice.flash 0 1 = some (5 * blockSize) := by rfl
    exact absurd (max.bound 1 (by decide) _ second) (by decide)

end Qapp.Fw
