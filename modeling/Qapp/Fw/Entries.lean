import Qapp.Fw.Bounds
import Qapp.Fw.Termination

/-!
# Reads of the header array

`PROCESS_IMAGE` looks at the entry of the current image, which is always there. `PREPARE_CONNECT`
looks at the entry it stops at before it asks whether there is one.
-/

namespace Qapp.Fw
open ByteMem Traced
open Relation (ReflTransGen)

/-- Every entry that is read is in the array. -/
def InArray (l : List Event) : Prop := ∀ i inside, .note (.header i inside) ∈ l → inside = true

theorem InArray.nil : InArray [] := fun _ _ mem => absurd mem List.not_mem_nil

theorem InArray.append {l k : List Event} : InArray (l ++ k) ↔ InArray l ∧ InArray k := by
  constructor
  · exact fun h => ⟨fun i b mem => h i b (List.mem_append_left _ mem),
      fun i b mem => h i b (List.mem_append_right _ mem)⟩
  · rintro ⟨h, h'⟩ i b mem
    exact (List.mem_append.mp mem).elim (h i b) (h' i b)

/-! ## Code that does not look at the array -/

/-- No entry is read. -/
def apartHdr : Frame St Event where
  rel _ l _ := ∀ w ∈ l, (!w.looksUp) = true
  refl _ := fun _ mem => absurd mem List.not_mem_nil
  trans := fun h h' w mem => (List.mem_append.mp mem).elim (h w) (h' w)

variable {α : Type} {e : Env} {p : Packet} {s t : St} {c : Cxt}

abbrev Apart (m : M α) : Prop := Within apartHdr m

theorem Apart.of {m : M α} (h : Blind m) : Apart m :=
  ⟨fun s w mem => (Bool.and_eq_true_iff.mp ((h.run s).events w mem)).2⟩

theorem Apart.steady {m : M α} (h : Steady m) : Apart m :=
  Apart.of (Blind.of h)

theorem Apart.closing {m : M α} (h : Closing m) : Apart m :=
  Apart.of (Blind.of_closing h)

theorem apart_updateCxt (f : Cxt → Cxt) : Apart (updateCxt f) :=
  .update fun _ _ mem => absurd mem List.not_mem_nil

theorem apart_emit {w : Event} (apart : (!w.looksUp) = true) : Apart (Act.emit w : M Unit) :=
  .emit fun _ _ mem => List.mem_singleton.mp mem ▸ apart

theorem apart_getCxt : Apart getCxt := Apart.of getCxt_blind

theorem Apart.inArray {m : M α} (h : Apart m) (s : St) : InArray (m s).trace :=
  fun _ _ mem => Bool.noConfusion (h.run s _ mem)

theorem receiveConfigFile_apart (buf : Mem) {note : Nat → Event}
    (notes : ∀ n, (!(note n).looksUp) = true) : Apart (receiveConfigFile buf note) := by
  refine .bind apart_getCxt fun c => ?_
  cases c.configBuf with
  | none =>
    refine .ite (.fail _) (.bind (apart_emit (notes _)) fun _ => .ite (.fail _) (.ite (.fail _) ?_))
    refine .bind (apart_updateCxt _) fun _ => .ite (.fail _) ?_
    refine .bind (Apart.steady (malloc_steady _)) fun _ => .ite (.fail _) ?_
    refine .bind (apart_emit (notes _)) fun _ => .bind (apart_updateCxt _) fun _ => .ite ?_ (.pure _)
    exact .bind (apart_updateCxt _) fun _ => .bind (apart_updateCxt _) fun _ => .pure _
  | some b =>
    refine .bind (apart_emit (notes _)) fun _ => .bind (apart_updateCxt _) fun _ => .ite ?_ (.pure _)
    exact .bind (apart_updateCxt _) fun _ => .pure _

theorem acceptConfigFile_apart (e : Env) (b : List UInt8) : Apart (acceptConfigFile e b) := by
  refine .bind (apart_updateCxt _) fun _ => .bind (apart_emit rfl) fun _ => .ite (.fail _) ?_
  refine .bind (.orFail (Apart.steady (writeFwdHeader_steady e b)) _) fun _ => ?_
  refine .bind (apart_updateCxt _) fun _ => .bind (Apart.steady (malloc_steady _)) fun _ => ?_
  have update (f : St → St) : Apart (Act.update f : M Unit) :=
    .update fun _ _ mem => absurd mem List.not_mem_nil
  refine .ite (.bind (update _) fun _ => .fail _) (.bind (update _) fun _ => ?_)
  cases (checkEntries (parseImageHdrs (hdrNumImages b) (b.drop hdrPart1Len))
    ⟨0, 0, false, false, 0⟩).2 with
  | none => exact .fail _
  | some a =>
    refine .bind (Apart.steady (checkSums_steady a)) fun _ =>
      .bind (Apart.of dropConfigBuf_blind) fun _ => ?_
    refine .bind apart_getCxt fun c => .ite ?_ ?_
    · exact .bind (apart_updateCxt _) fun _ => apart_emit rfl
    · refine .bind (Apart.steady (malloc_steady _)) fun _ => .ite (.fail _) (.bind .read fun _ => ?_)
      refine .bind (Apart.of (checkDownload_blind ..)) fun _ =>
        .bind (Apart.steady (free_steady _)) fun _ => ?_
      exact .bind apart_getCxt fun c => .bind (apart_updateCxt _) fun _ => apart_emit rfl

theorem processConfigFile_apart (e : Env) (buf : Mem) {note : Nat → Event}
    (notes : ∀ n, (!(note n).looksUp) = true) : Apart (processConfigFile e buf note) :=
  .cleanUp (.bind (receiveConfigFile_apart buf notes) fun
    | none => .pure _
    | some b => acceptConfigFile_apart e b) (Apart.of dropConfigBuf_blind)

theorem writeImageData_apart (e : Env) (p : Packet) : Apart (writeImageData e p) := by
  rw [writeImageData_eq]
  refine .bind apart_getCxt fun c => .bind (.when (apart_updateCxt _)) fun _ => .ite (.fail _) ?_
  refine .bind (apart_emit rfl) fun _ => .bind (Apart.of (digestUpdate_blind _)) fun _ => ?_
  refine .bind (.orFail (Apart.steady (eraseAhead_steady ..)) _) fun _ => ?_
  exact .bind (.orFail (Apart.of (writePartition_blind ..)) _) fun _ => apart_updateCxt _

/-! ## The two reads -/

theorem readImageHdr_eq (p : Packet) (i : Nat) (s : St) : readImageHdr p i s =
    ⟨.ok (imgAt p s.imageHdr i), s, [.note (.header i (s.hasImageHdr i))]⟩ := rfl

/-- A pass of the loop over the data looks at the entry of its image. -/
theorem imagePass_looks (hc : s.cxt = some c) (inside : s.hasImageHdr c.imageIndex = true) :
    InArray (imagePass e p s).trace := by
  unfold imagePass
  rw [Act.bind_ok (getCxt_run hc), Act.ite_run]
  split
  · exact .nil
  · rw [Act.bind_run, readImageHdr_eq, Act.andThen_ok]
    refine InArray.append.mpr ⟨fun i b mem => ?_, ?_⟩
    · cases List.mem_singleton.mp mem
      exact inside
    · generalize imgAt p s.imageHdr c.imageIndex = img
      apply Apart.inArray
      refine .bind (.when (Apart.of (startImage_blind ..))) fun _ => .ite ?_ ?_
      · refine .bind (Apart.of (nextImage_blind _)) fun _ => .bind apart_getCxt fun d => .ite ?_ (.pure _)
        exact .bind (apart_updateCxt _) fun _ => .pure _
      · refine .bind (.when (Apart.of digestStarts_blind)) fun _ => ?_
        refine .bind (writeImageData_apart e p) fun _ => ?_
        refine .bind (Apart.of (finishIfComplete_blind ..)) fun last => .ite (.pure _) ?_
        exact .bind (.orFail (Apart.steady (eraseNext_steady e)) _) fun _ => .ite (.pure _) (.pure _)

/-- The loop over the data never leaves the array. -/
theorem processReceiveImage_looks (fuel : Nat) (hc : s.cxt = some c)
    (array : s.imageHdr.isSome = true) (inside : c.imageIndex < c.totalImages) :
    InArray (processReceiveImage e p fuel s).trace := by
  induction fuel generalizing s c with
  | zero => exact .nil
  | succ fuel ih =>
    have first := imagePass_looks (e := e) (p := p) hc ((hasImageHdr_iff hc _).mpr ⟨array, inside⟩)
    rw [processReceiveImage_pass, Act.bind_run]
    rcases run : imagePass e p s with ⟨_ | again, t, l⟩
    · rw [run] at first
      exact first
    · have pass : (imagePass e p s).res = .ok again := congrArg Out.res run
      obtain ⟨d, hd, hdrs, taken⟩ := Gives.elim (imagePass_gives e p) hc (OnCourse.refl s c) pass
      rw [run] at first hd hdrs taken
      rw [Act.andThen_ok]
      refine InArray.append.mpr ⟨first, ?_⟩
      cases again with
      | false => exact .nil
      | true =>
        obtain ⟨never, -⟩ | advances := taken
        · cases never
        · obtain ⟨-, -, next⟩ := advances.goes rfl
          refine ih hd (hdrs ▸ array) ?_
          obtain ⟨index, -⟩ | ⟨index, -⟩ := advances.moved
          · exact next index
          · rw [index, advances.total]
            exact inside

theorem skipImages_lt_iff (flag : Nat → Bool) (total i : Nat) :
    skipImages flag total total i < total ↔ ∃ m, i ≤ m ∧ m < total ∧ flag m = true := by
  obtain ⟨le, skipped, stop⟩ := skipImages_spec flag total total i (Nat.le_add_left ..)
  constructor
  · exact fun lt => ⟨_, le, lt, stop lt⟩
  · rintro ⟨m, le, lt, wanted⟩
    by_contra beyond
    have skip := skipped m le (Nat.lt_of_lt_of_le lt (Nat.not_lt.mp beyond))
    rw [wanted] at skip
    cases skip

/-- `PREPARE_CONNECT` looks at the entry of the next image to download, if there is one or not. -/
theorem prepareConnect_looks (h : Passing s c) : InArray (prepareConnect e p s).trace ↔
    ∃ m, c.imageIndex ≤ m ∧ m < c.totalImages ∧ c.downloadFlag m = true := by
  obtain ⟨hdrs, array, -⟩ := h.ctl.accepted h.first
  have full : ¬c.isFirst = true := by
    rw [h.first]
    exact Bool.false_ne_true
  rw [← skipImages_lt_iff]
  unfold prepareConnect
  rw [Act.bind_ok (getCxt_run h.cxt), Act.ite_run, if_neg full, Act.bind_ok (updateCxt_run h.cxt _)]
  generalize skipImages c.downloadFlag c.totalImages c.totalImages c.imageIndex = index
  have hd : (s.withCxt { c with imageIndex := index }).cxt = some { c with imageIndex := index } :=
    rfl
  have known := hasImageHdr_iff hd index
  have array : (s.withCxt { c with imageIndex := index }).imageHdr.isSome = true := by
    rw [withCxt_imageHdr, array]
    rfl
  rw [Act.bind_ok (getCxt_run hd), Act.bind_run, readImageHdr_eq, Act.andThen_ok]
  constructor
  · intro inArray
    exact (known.mp (inArray _ _ (List.mem_cons_self ..))).2
  · intro lt
    refine InArray.append.mpr ⟨fun i b mem => ?_, ?_⟩
    · cases List.mem_singleton.mp mem
      exact known.mpr ⟨array, lt⟩
    · apply Apart.inArray
      refine .ite ?_ (.ite (apart_updateCxt _) (apart_updateCxt _))
      exact .bind (Apart.steady (createFs1_steady ..)) fun _ =>
        .bind (Apart.steady releasePartition_steady) fun _ => apart_updateCxt _

/-! ## Every pass -/

/-- `PREPARE_CONNECT` finds no image left to be downloaded. -/
structure Exhausted (p : Packet) (c : Cxt) : Prop where
  guard : c.bufOffset ≤ p.len
  state : c.fwUpgradeState = .prepareConnect
  first : c.isFirst = false
  none : ∀ i, c.imageIndex ≤ i → i < c.totalImages → c.downloadFlag i = false

theorem note_apart (buffer : Buffer) (n : Nat) : (!(Buffer.note buffer n).looksUp) = true := by
  cases buffer <;> rfl

theorem processImage_looks {fuel : Nat} {buffer : Buffer} (hc : s.cxt = some c) (ctl : Ctl s c)
    (state : c.fwUpgradeState = .processImage) : InArray ((do
      processReceiveImage e p fuel
      afterImages buffer) s).trace := by
  have full := (ctl.image state).1
  obtain ⟨hdrs, array, -⟩ := ctl.accepted full
  have inside := (ctl.current full (by rw [state]; rfl)).1
  have first := processReceiveImage_looks (e := e) (p := p) fuel hc (by rw [array]; rfl) inside
  have after : Apart (afterImages buffer) :=
    .bind apart_getCxt fun _ => .bind (.when (apart_updateCxt _)) fun _ => .pure _
  rw [Act.bind_run]
  rcases run : processReceiveImage e p fuel s with ⟨_ | _, t, l⟩
  · rw [run] at first
    exact first
  · rw [run] at first
    exact InArray.append.mpr ⟨first, after.inArray t⟩

/-- A pass stays in the array but for `PREPARE_CONNECT` without an image to download. -/
theorem sessionStep_looks {buffer : Buffer} (hc : s.cxt = some c) (ctl : Ctl s c)
    (guard : c.bufOffset ≤ p.len ∨ c.fwUpgradeState.late = true) :
    InArray (sessionStep e p buffer s).trace ↔ ¬Exhausted p c := by
  have other {m : M (Option Buffer)} (apart : Apart m) (ne : c.fwUpgradeState ≠ .prepareConnect) :
      InArray (m s).trace ↔ ¬Exhausted p c :=
    iff_of_true (apart.inArray s) fun exhausted => ne exhausted.state
  unfold sessionStep
  rw [Act.bind_ok (getCxt_run hc)]
  cases state : c.fwUpgradeState with
  | notStart => exact other (.bind (apart_updateCxt _) fun _ => .pure _) (by rw [state]; rintro ⟨⟩)
  | getTrialInfo =>
    exact other (.bind (Apart.closing (getTrialInfo_closing e)) fun _ => .pure _)
      (by rw [state]; rintro ⟨⟩)
  | eraseFwd =>
    exact other (.bind (.orFail (Apart.steady (eraseFwd_steady ..)) _) fun _ =>
      .bind (apart_updateCxt _) fun _ => .pure _) (by rw [state]; rintro ⟨⟩)
  | eraseSecondFs =>
    exact other (.bind (Apart.closing (eraseSecondFs_closing e)) fun _ => .pure _)
      (by rw [state]; rintro ⟨⟩)
  | prepareFs =>
    exact other (.bind (Apart.closing (prepareFs_closing e)) fun _ => .pure _)
      (by rw [state]; rintro ⟨⟩)
  | connect => exact other (.bind (apart_updateCxt _) fun _ => .pure _) (by rw [state]; rintro ⟨⟩)
  | receiveData =>
    exact other (.ite (.pure _) (.bind (apart_updateCxt _) fun _ => .pure _))
      (by rw [state]; rintro ⟨⟩)
  | disconnectServer =>
    exact other (.bind (apart_updateCxt _) fun _ => .pure _) (by rw [state]; rintro ⟨⟩)
  | processConfigFile =>
    exact other (.bind (processConfigFile_apart e _ (note_apart buffer)) fun _ => .pure _)
      (by rw [state]; rintro ⟨⟩)
  | duplicateImages =>
    exact other (.bind (Apart.of (processDuplicateImages_blind e)) fun _ =>
      .bind (apart_updateCxt _) fun _ => .pure _) (by rw [state]; rintro ⟨⟩)
  | duplicateFs =>
    exact other (.bind (.when (Apart.steady (processDuplicateFs_steady e))) fun _ =>
      .bind (apart_updateCxt _) fun _ => .pure _) (by rw [state]; rintro ⟨⟩)
  | finish =>
    exact other (.bind (Apart.closing (sessionFinalize_closing e)) fun _ => .pure _)
      (by rw [state]; rintro ⟨⟩)
  | processImage =>
    refine iff_of_true (processImage_looks hc ctl state) fun exhausted => ?_
    cases exhausted.state.symm.trans state
  | prepareConnect =>
    have same : ((do
        prepareConnect e p
        pure (some buffer) : M (Option Buffer)) s).trace = (prepareConnect e p s).trace := by
      rw [Act.bind_run]
      rcases prepareConnect e p s with ⟨_ | _, t, l⟩
      · rfl
      · exact List.append_nil l
    rw [same]
    cases first : c.isFirst with
    | true =>
      have run : prepareConnect e p s = setState .connect s := by
        unfold prepareConnect
        rw [Act.bind_ok (getCxt_run hc), Act.ite_run, if_pos first]
      rw [run]
      refine iff_of_true ((apart_updateCxt _).inArray s) fun exhausted => ?_
      cases exhausted.first.symm.trans first
    | false =>
      rw [prepareConnect_looks ⟨hc, ctl, state, first⟩]
      have inside : c.bufOffset ≤ p.len := guard.resolve_right (by rw [state]; exact Bool.false_ne_true)
      constructor
      · rintro ⟨m, le, lt, wanted⟩ exhausted
        cases wanted.symm.trans (exhausted.none m le lt)
      · intro more
        by_contra none
        refine more ⟨inside, state, first, fun i le lt => ?_⟩
        exact Bool.eq_false_of_not_eq_true fun wanted => none ⟨i, le, lt, wanted⟩

/-! ## Runs -/

/-- The next pass is such a `PREPARE_CONNECT`. -/
def Stuck (p : Packet) (s : St) : Prop := ∃ c, s.cxt = some c ∧ Exhausted p c

/-- No pass of the call is. -/
def NeverStuck (e : Env) (s : St) (p : Packet) : Prop := ∀ x, LoopHead e p s x → ¬Stuck p x.1

section Loop
variable {b : Buffer}

theorem sessionLoop_inArray (fuel : Nat) (good : Good s)
    (never : ∀ x, ReflTransGen (fun x y => sessionNext e p x = some y) (s, b) x → ¬Stuck p x.1) :
    InArray (sessionLoop e p fuel b s).trace := by
  induction fuel generalizing s b with
  | zero => exact .nil
  | succ fuel ih =>
    unfold sessionLoop
    cases hc : s.cxt with
    | none =>
      rw [Act.bind_run, getCxt_none hc]
      exact .nil
    | some c =>
      rw [Act.bind_ok (getCxt_run hc), Act.ite_run]
      split
      · rename_i guard
        have first : InArray (sessionStep e p b s).trace :=
          (sessionStep_looks hc (good c hc) guard).mpr fun exhausted =>
            never (s, b) .refl ⟨c, hc, exhausted⟩
        rw [Act.bind_run]
        rcases run : sessionStep e p b s with ⟨_ | _ | next, t, l⟩
        · rwa [run] at first
        · rw [run] at first
          exact InArray.append.mpr ⟨first, .nil⟩
        · have goes : sessionNext e p (s, b) = some (t, next) := by
            unfold sessionNext
            rw [hc]
            dsimp only
            rw [if_pos guard, run]
          rw [run] at first
          exact InArray.append.mpr ⟨first, ih (sessionNext_good good goes)
            fun x passes => never x (.head goes passes)⟩
      · exact .nil

/-- A loop that runs makes at least one pass. -/
theorem InArray.not_stuck {n : Nat} (good : Good s)
    (inArray : InArray (sessionLoop e p (n + 1) b s).trace) : ¬Stuck p s := by
  rintro ⟨c, hc, exhausted⟩
  unfold sessionLoop at inArray
  rw [Act.bind_ok (getCxt_run hc), Act.ite_run, if_pos (.inl exhausted.guard)] at inArray
  have first : InArray (sessionStep e p b s).trace :=
    fun i inside mem => inArray i inside (Act.mem_trace_bind mem)
  exact (sessionStep_looks hc (good c hc) (.inl exhausted.guard)).mp first exhausted

theorem sessionLoop_looks (good : Good s) (ends : Loop.Ends (sessionNext e p) (s, b)) :
    ∃ n, ∀ fuel, n ≤ fuel → (InArray (sessionLoop e p fuel b s).trace ↔
      ∀ x, ReflTransGen (fun x y => sessionNext e p x = some y) (s, b) x → ¬Stuck p x.1) := by
  suffices h : ∃ n, ∀ fuel, n ≤ fuel → InArray (sessionLoop e p fuel b s).trace →
      ∀ x, ReflTransGen (fun x y => sessionNext e p x = some y) (s, b) x → ¬Stuck p x.1 by
    obtain ⟨n, enough⟩ := h
    exact ⟨n, fun fuel le => ⟨enough fuel le, sessionLoop_inArray fuel good⟩⟩
  generalize hx : (s, b) = x at ends
  induction ends generalizing s b with
  | last left =>
    subst hx
    refine ⟨1, fun fuel le inArray x passes => ?_⟩
    obtain ⟨fuel, rfl⟩ : ∃ k, fuel = k + 1 := ⟨fuel - 1, by omega⟩
    obtain rfl | ⟨y, goes, -⟩ := passes.cases_head
    · exact inArray.not_stuck good
    · cases left.symm.trans goes
  | @pass x y goes _ ih =>
    subst hx
    obtain ⟨t, b'⟩ := y
    obtain ⟨n, enough⟩ := ih (sessionNext_good good goes) rfl
    refine ⟨n + 1, fun fuel le inArray x passes => ?_⟩
    obtain ⟨fuel, rfl⟩ : ∃ k, fuel = k + 1 := ⟨fuel - 1, by omega⟩
    obtain rfl | ⟨y, goes', passes⟩ := passes.cases_head
    · exact inArray.not_stuck good
    · cases goes.symm.trans goes'
      rw [sessionLoop_pass goes] at inArray
      exact enough fuel (Nat.le_of_succ_le_succ le) (InArray.append.mp inArray).2 x passes

end Loop

theorem enterSession_apart (e : Env) (p : Packet) : Apart (enterSession e p) :=
  .bind (.when (.orFail (sessionInit_within Apart.closing
    (.update fun _ _ mem => absurd mem List.not_mem_nil) e) _)) fun _ =>
    .bind apart_getCxt fun _ => apart_updateCxt _

theorem sessionProcess_inArray (fuel : Nat) (good : Good s) (never : NeverStuck e s p) :
    InArray (sessionProcess e fuel p s).trace := by
  have enter := (enterSession_apart e p).inArray s
  rw [sessionProcess_enter, Act.bind_run]
  rcases run : enterSession e p s with ⟨_ | _, t, l⟩
  · rwa [run] at enter
  · have entered := enterSession_good (e := e) (p := p) good
    rw [run] at enter entered
    refine InArray.append.mpr ⟨enter, sessionLoop_inArray fuel entered fun x passes => ?_⟩
    exact never x ⟨by rw [run], by rw [run]; exact passes⟩

theorem sessionProcess_looks (good : Good s) : ∃ n, ∀ fuel, n ≤ fuel →
    (InArray (sessionProcess e fuel p s).trace ↔ NeverStuck e s p) := by
  obtain ⟨n, enough⟩ := sessionLoop_looks (p := p) (enterSession_good (e := e) good)
    (session_loop_ends (enterSession_good good) none)
  refine ⟨n, fun fuel le => ⟨?_, sessionProcess_inArray fuel good⟩⟩
  rintro inArray x ⟨entered, passes⟩
  have rest := (enough fuel le).mp
  rw [sessionProcess_enter, Act.bind_run] at inArray
  rcases run : enterSession e p s with ⟨_ | _, t, l⟩
  · rw [run] at entered
    cases entered
  · rw [run] at inArray rest passes
    exact rest (InArray.append.mp inArray).2 x passes

theorem Served.good {ok : St → Packet → Prop} {run : List (Packet × List Event)}
    (served : Served e ok s run) : Good s := by
  induction served with
  | idle none =>
    intro c hc
    cases none.symm.trans hc
  | call _ fuel p _ ih => exact ih.call fuel p

/-- An entry of the header array is read where there is none in the runs, and only in those, in
which `PREPARE_CONNECT` finds no image to download. -/
theorem header_reads_iff {run : List (Packet × List Event)}
    (served : Served e (fun _ _ => True) s run) :
    (∀ p, ∃ n, ∀ fuel, n ≤ fuel →
      (InArray (sessionProcess e fuel p s).trace ↔ NeverStuck e s p)) ∧
    (Served e (NeverStuck e) s run → ∀ call ∈ run, InArray call.2) ∧
    ∀ p x, LoopHead e p s x → ∀ c, x.1.cxt = some c → c.isFirst = false →
      ∃ hdrs, x.1.imageHdr = some hdrs ∧ hdrs.length = c.totalImages := by
  refine ⟨fun p => sessionProcess_looks served.good, fun never => ?_, fun p x head c hc full => ?_⟩
  · clear served
    induction never with
    | idle => exact fun _ mem => absurd mem List.not_mem_nil
    | call served fuel p met ih =>
      intro call mem
      obtain before | last := List.mem_append.mp mem
      · exact ih call before
      · obtain rfl := List.mem_singleton.mp last
        exact sessionProcess_inArray fuel served.good met
  · exact (head.good served.good c hc).accepted full

def Event.looksInside : Event → Bool
  | .note (.header _ inside) => inside
  | _ => false

/-- There is an image left to download where a pass is `PREPARE_CONNECT`. -/
def connects (x : St × Buffer) : Bool :=
  x.1.cxt.all fun c => c.fwUpgradeState != .prepareConnect ||
    c.imageIndex < c.totalImages && c.downloadFlag c.imageIndex

theorem not_stuck_of_connects {x : St × Buffer} (connects : connects x = true) :
    ¬Stuck p x.1 := by
  rintro ⟨c, hc, exhausted⟩
  unfold Fw.connects at connects
  rw [hc, Option.all_some, exhausted.state, bne_self_eq_false, Bool.false_or, Bool.and_eq_true,
    decide_eq_true_eq] at connects
  rw [exhausted.none _ (Nat.le_refl _) connects.1] at connects
  cases connects.2

/-- Behind a packet with the first 200 bytes of the header, the call for the rest of it and the
first image reads the entries of the two images. -/
theorem second_call_reads :
    let s := (sessionProcess plainEnv 40 fullFirst plainDevice).state
    NeverStuck plainEnv s fullSecond ∧
    (sessionProcess plainEnv 40 fullSecond s).trace.any Event.looksInside = true ∧
    ∃ n, ∀ fuel, n ≤ fuel → InArray (sessionProcess plainEnv fuel fullSecond s).trace := by
  intro s
  have served := (Served.idle rfl : Served plainEnv (fun _ _ => True) plainDevice []).call 40
    fullFirst trivial
  have all : Loop.passes (sessionNext plainEnv fullSecond) connects 40
      ((enterSession plainEnv fullSecond s).state, none) = true := by decide +kernel
  have never : NeverStuck plainEnv s fullSecond := fun x head =>
    not_stuck_of_connects (Loop.passes_reached all head.2)
  obtain ⟨n, enough⟩ := (header_reads_iff served).1 fullSecond
  exact ⟨never, by decide +kernel, n, fun fuel le => (enough fuel le).mpr never⟩

def Event.leavesArray : Event → Bool
  | .note (.header _ inside) => !inside
  | _ => false

/-- A header whose only image is already there. -/
def presentHeader : List UInt8 := encodedHeader formatPartial [plainImage appImgId blockSize 1]

/-- Nothing is to be downloaded, and entry 1 of 1 is read. -/
theorem no_download_reads_outside : ¬∀ (e : Env) (s : St) (run : List (Packet × List Event)),
    Served e (fun _ _ => True) s run → ∀ call ∈ run, InArray call.2 := by
  intro inArray
  have run := (Served.idle rfl : Served plainEnv (fun _ _ => True) plainDevice []).call 40
    (.of 0 presentHeader) trivial
  have read : (sessionProcess plainEnv 40 (.of 0 presentHeader) plainDevice).trace.any
      Event.leavesArray = true := by
    decide +kernel
  obtain ⟨w, mem, outside⟩ := List.any_eq_true.mp read
  have bound := inArray _ _ _ run _ (.head _)
  cases w with
  | note n =>
    cases n with
    | header i inside =>
      rw [bound i inside mem] at outside
      cases outside
    | _ => cases outside
  | _ => cases outside

end Qapp.Fw
