import Qapp.Fw.Access
import Qapp.Fw.Scan

/-!
# Code that only reads

Looking up partitions, scanning the tables and selecting the trial FWD leave the
devices, the context and the partition of the session as they are.
-/

namespace Qapp.Fw
open ByteMem Traced
open Relation (ReflTransGen)

/-- Nothing the session sees changes, and nothing is traced. -/
def QuietStep (a b : Config St Event) : Prop := Quiet a.1 b.1 ∧ b.2 = a.2

theorem quiet_of_steps {a b : Config St Event} (h : ReflTransGen QuietStep a b) :
    QuietStep a b := by
  induction h with
  | refl => exact ⟨.refl _, rfl⟩
  | tail _ step ih => exact ⟨ih.1.trans step.1, step.2.trans ih.2⟩

abbrev OnlyReads {α : Type} (P : St → List Event → Prop) (m : M α)
    (Q : Except Status α → St → List Event → Prop) : Prop := Sound QuietStep P m Q

/-- A run that only reads, in one step. -/
theorem OnlyReads.run {α : Type} {P : St → List Event → Prop} {m : M α}
    {Q : Except Status α → St → List Event → Prop} (h : OnlyReads P m Q) {s : St} {l : List Event}
    (hp : P s l) : Quiet s (m s).state ∧ (m s).trace = [] ∧ Q (m s).res (m s).state l := by
  obtain ⟨run, hq⟩ := h s l hp
  obtain ⟨quiet, trace⟩ := quiet_of_steps run
  simp only at quiet trace
  have none : (m s).trace = [] := List.append_right_eq_self.mp trace
  rw [none, List.append_nil] at hq
  exact ⟨quiet, none, hq⟩

theorem OnlyReads.exists_run {α : Type} {P : St → List Event → Prop} {m : M α}
    {Q : Except Status α → St → List Event → Prop} (h : OnlyReads P m Q) {s : St} {l : List Event}
    (hp : P s l) : ∃ r t, m s = ⟨r, t, []⟩ ∧ Quiet s t ∧ Q r t l := by
  obtain ⟨quiet, trace, hq⟩ := h.run hp
  exact ⟨(m s).res, (m s).state, by rw [← trace], quiet, hq⟩

theorem OnlyReads.of_run {α : Type} {P : St → List Event → Prop} {m : M α}
    {Q : Except Status α → St → List Event → Prop}
    (h : ∀ s l, P s l → ∃ r t, m s = ⟨r, t, []⟩ ∧ Quiet s t ∧ Q r t l) : OnlyReads P m Q := by
  intro s l hp
  obtain ⟨r, t, run, quiet, hq⟩ := h s l hp
  rw [run]
  simp only [List.append_nil]
  exact ⟨.single ⟨quiet, rfl⟩, hq⟩

/-- Reading keeps what quiet steps keep. -/
theorem OnlyReads.keeping {α : Type} {P I : St → List Event → Prop} {m : M α}
    {Q : Except Status α → St → List Event → Prop} (h : OnlyReads P m Q)
    (stable : ∀ s t l, I s l → Quiet s t → I t l) :
    OnlyReads (fun s l => P s l ∧ I s l) m fun r s l => Q r s l ∧ I s l := by
  refine .of_run fun s l ⟨hp, hi⟩ => ?_
  obtain ⟨r, t, run, quiet, hq⟩ := h.exists_run hp
  exact ⟨r, t, run, quiet, hq, stable s t l hi quiet⟩

/-- The module is initialized and the session's own handle is in use. -/
structure Up (s : St) (_ : List Event) : Prop where
  held : Held s
  init : s.fuInitialized = true

/-- Handle `k` is not the session's own. -/
structure Spare (k : Nat) (s : St) (l : List Event) : Prop extends Up s l where
  loose : Loose k s

theorem Quiet.up {s t : St} {l l' : List Event} (q : Quiet s t) (h : Up s l) : Up t l' :=
  ⟨q.held h.held, (q.init h.init).1⟩

theorem Quiet.loose {s t : St} {k : Nat} (q : Quiet s t) (h : Loose k s) : Loose k t :=
  h.congr q.cxt

/-- An opened partition is not the session's own, and its client is what the FWD lists. -/
structure Opened (fwdIdx id k : Nat) (s : St) (l : List Event) : Prop extends Spare k s l where
  lt : k < maxHandles
  used : 0 < (s.handles k).refCount
  found : Lookup s.flash fwdIdx id (s.handles k)

theorem findPartition_reads (e : Env) (fwdIdx id : Nat) :
    OnlyReads Up (findPartition e fwdIdx id) fun r s l => Up s l ∧
      ∀ k, r = .ok k → Opened fwdIdx id k s l := by
  refine .of_run fun s l up => ?_
  rcases findPartition_cases e fwdIdx id s with ⟨err, t, run, reads⟩ |
    ⟨k, c, t, run, reads, free, found⟩
  · exact ⟨_, _, run, reads.quiet, reads.quiet.up up, by simp⟩
  · have loose := reads.quiet.loose (up.held.loose free)
    have quiet := reads.quiet.trans (quiet_setHandle loose c)
    refine ⟨_, _, run, quiet, quiet.up up, ?_⟩
    intro j hj
    cases hj
    have here : (setHandle k c t).handles k = c := by simp [setHandle]
    have flash : (setHandle k c t).flash = s.flash := quiet.flash
    refine ⟨⟨quiet.up up, quiet.loose (up.held.loose free)⟩, (freeHandle_some free).1, ?_, ?_⟩
    · rw [here]
      obtain ⟨-, i, -, rfl⟩ := found
      exact Nat.zero_lt_one
    · rw [here, flash]
      exact found

theorem release_reads (k : Nat) :
    OnlyReads (Spare k) (Act.update (releaseHandle k)) fun _ s l => Up s l := by
  refine .of_run fun s l spare => ?_
  have quiet := quiet_release spare.loose
  exact ⟨_, _, rfl, quiet, quiet.up spare.toUp⟩

theorem getFwdInfo_reads (e : Env) (i : Nat) (info : FwdInfo) (old : Nat) :
    OnlyReads Up (getFwdInfo e i info old) fun r s l => Up s l ∧ ∃ v, r = .ok v := by
  refine .of_run fun s l up => ?_
  obtain ⟨ok, v, t, run, reads, -⟩ := getFwdInfo_cases e i info old s
  exact ⟨_, _, run, reads.quiet, reads.quiet.up up, _, rfl⟩

theorem firstPartition_reads (e : Env) (fwdIdx : Nat) :
    OnlyReads Up (firstPartition e fwdIdx) fun r s l => Up s l ∧ ∀ k, r = .ok k → Spare k s l := by
  refine .of_run fun s l up => ?_
  unfold firstPartition
  simp only [Act.bind_run, validation_run, up.init, if_true, Act.andThen_ok, Act.ite_run,
    List.nil_append]
  split
  · exact ⟨_, s, rfl, .refl s, up, by simp⟩
  · simp only [Act.read_run, Act.andThen_ok, List.nil_append]
    cases free : freeHandle s with
    | none => exact ⟨_, s, rfl, .refl s, up, by simp⟩
    | some k =>
      obtain ⟨ok, m, t, run, reads, -⟩ := flashRead_cases e (fwdAddr fwdIdx) 512 s
      have loose := reads.quiet.loose (up.held.loose free)
      simp only [Act.bind_run, run, Act.andThen_ok, List.nil_append, Act.ite_run]
      split
      · exact ⟨_, t, rfl, reads.quiet, reads.quiet.up up, by simp⟩
      · split
        · exact ⟨_, t, rfl, reads.quiet, reads.quiet.up up, by simp⟩
        · have quiet := reads.quiet.trans
            (quiet_setHandle loose ((fwdEntry m fwdIdx 0).client fwdIdx 0))
          refine ⟨_, _, rfl, quiet, quiet.up up, fun j hj => ?_⟩
          cases hj
          exact ⟨quiet.up up, quiet.loose (up.held.loose free)⟩

theorem nextPartition_reads (e : Env) (curr : Nat) :
    OnlyReads (Spare curr) (nextPartition e curr) fun r s l => Spare curr s l ∧
      ∀ k, r = .ok k → Spare k s l := by
  refine .of_run fun s l spare => ?_
  unfold nextPartition
  simp only [Act.bind_run, validation_run, spare.init, if_true, Act.andThen_ok, Act.ite_run,
    List.nil_append, Act.read_run]
  split
  · exact ⟨_, s, rfl, .refl s, spare, by simp⟩
  · cases free : freeHandle s with
    | none => exact ⟨_, s, rfl, .refl s, spare, by simp⟩
    | some k =>
      obtain ⟨ok, m, t, run, reads, -⟩ := flashRead_cases e (fwdAddr (s.handles curr).fwdIdx) 512 s
      have kept : Spare curr t l := ⟨reads.quiet.up spare.toUp, reads.quiet.loose spare.loose⟩
      have loose := reads.quiet.loose (spare.held.loose free)
      simp only [Act.bind_run, run, Act.andThen_ok, List.nil_append, Act.ite_run]
      split
      · exact ⟨_, t, rfl, reads.quiet, kept, by simp⟩
      · split
        · exact ⟨_, t, rfl, reads.quiet, kept, by simp⟩
        · split
          · exact ⟨_, t, rfl, reads.quiet, kept, by simp⟩
          · have quiet := reads.quiet.trans (quiet_setHandle loose
              ((fwdEntry m (s.handles curr).fwdIdx ((s.handles curr).imgIdx + 1)).client
                (s.handles curr).fwdIdx ((s.handles curr).imgIdx + 1)))
            refine ⟨_, _, rfl, quiet, ⟨quiet.up spare.toUp, quiet.loose spare.loose⟩,
              fun j hj => ?_⟩
            cases hj
            exact ⟨quiet.up spare.toUp, quiet.loose (spare.held.loose free)⟩

theorem partitionEnd_reads (e : Env) (fwdIdx id imgStart : Nat) :
    OnlyReads Up (partitionEnd e fwdIdx id imgStart) fun _ s l => Up s l := by
  unfold partitionEnd
  refine .attempt_bind (findPartition_reads e fwdIdx id) fun r => ?_
  cases r with
  | error err => exact .pure _ fun s l h => h.1
  | ok k =>
    refine .bind (M := fun _ s l => Spare k s l) (.read fun s l h => (h.2 k rfl).toSpare)
      fun s => ?_
    exact .andThen (release_reads k) (fun _ _ _ up => up) fun _ => .pure _ fun s l up => up

theorem getFirst_reads (e : Env) :
    OnlyReads Up (getFirstProgrammingImageStartAddress e) fun _ s l => Up s l := by
  unfold getFirstProgrammingImageStartAddress
  have next : ∀ (id a current : Nat) (rest : Nat → M Nat),
      (∀ a, OnlyReads Up (rest a) fun _ s l => Up s l) →
      OnlyReads Up (partitionEnd e current id a >>= rest) fun _ s l => Up s l :=
    fun id a current rest h =>
      .andThen (partitionEnd_reads e current id a) (fun _ _ _ up => up) h
  refine .bind (M := fun _ s l => Up s l) (.read fun s l h => h) fun s => ?_
  refine next _ _ _ _ fun a => next _ _ _ _ fun a => next _ _ _ _ fun a => next _ _ _ _ fun a => ?_
  exact .pure _ fun s l h => h

theorem getTrialActiveFwdIndex_reads (e : Env) :
    OnlyReads Up (getTrialActiveFwdIndex e) fun r s l => Up s l ∧ ∃ v, r = .ok v := by
  refine .of_run fun s l up => ?_
  obtain ⟨ok, a, t, run, reads, -⟩ := getTrialActiveFwdIndex_cases e up.init
  exact ⟨_, _, run, reads.quiet, reads.quiet.up up, _, rfl⟩

theorem endAddrLoop_reads (e : Env) (fuel hdl endAddr : Nat) :
    OnlyReads (Spare hdl) (endAddrLoop e fuel hdl endAddr) fun _ s l => Up s l := by
  have done : ∀ hdl endAddr, OnlyReads (Spare hdl) (do
      Act.update (releaseHandle hdl)
      pure endAddr : M Nat) fun _ s l => Up s l := fun hdl endAddr =>
    .andThen (release_reads hdl) (fun _ _ _ up => up) fun _ => .pure _ fun s l up => up
  induction fuel generalizing hdl endAddr with
  | zero => exact done hdl endAddr
  | succ fuel ih =>
    unfold endAddrLoop
    refine .attempt_bind (nextPartition_reads e hdl) fun r => ?_
    cases r with
    | error err => exact (done hdl endAddr).pre fun s l h => h.1
    | ok next =>
      refine .andThen (K := fun _ s l => Spare next s l) ?_ (fun _ s l h => h.toUp) fun _ => ?_
      · refine OnlyReads.of_run fun s l h => ?_
        have quiet := quiet_release h.1.loose
        exact ⟨_, _, rfl, quiet, quiet.up h.1.toUp, quiet.loose (h.2 next rfl).loose⟩
      · exact .bind (M := fun _ s l => Spare next s l) (.read fun s l h => h) fun s =>
          ih next _

theorem getImageSetEndAddr_reads (e : Env) (fwdNum : Nat) :
    OnlyReads Up (getImageSetEndAddr e fwdNum) fun _ s l => Up s l := by
  unfold getImageSetEndAddr
  refine .andThen (getFwdInfo_reads e fwdNum .magic 0) (fun _ s l h => h.1) fun r =>
    .ite (fun _ => ?_) fun _ => .fail _ fun s l h => h.1
  refine .andThen (K := fun r s l => Up s l ∧ ∀ k, r = .ok k → Spare k s l) ?_
    (fun _ s l h => h.1) fun hdl => ?_
  · refine .orFail ((firstPartition_reads e fwdNum).pre (fun s l h => h.1) |>.post ?_)
    rintro r s l ⟨up, spare⟩
    cases r with
    | ok k => exact ⟨up, spare⟩
    | error err => exact ⟨up, by simp⟩
  · exact .bind (M := fun _ s l => Spare hdl s l) (.read fun s l h => h.2 hdl rfl) fun s =>
      endAddrLoop_reads e _ _ _

/-- What selecting leaves. -/
def Selects (r : Except Status (Nat × Nat × Nat)) (s : St) (l : List Event) : Prop :=
  Up s l ∧ ∀ i start size, r = .ok (i, start, size) → i < maxFwd

/-- Selecting changes nothing; it selects one of the three FWDs. -/
theorem selectTrialFwd_reads (e : Env) : OnlyReads Up (selectTrialFwd e) Selects := by
  have out : ∀ i start size : Nat, i < maxFwd →
      OnlyReads Up (pure (i, start, size) : M (Nat × Nat × Nat)) Selects := by
    intro i start size hi
    refine .pure _ fun s l up => ⟨up, ?_⟩
    intro i' start' size' heq
    cases heq
    exact hi
  have stop : ∀ err s l, Up s l → Selects (.error err) s l := fun err s l up => ⟨up, by simp⟩
  unfold selectTrialFwd
  refine .bind (M := fun _ s l => Up s l) (.read fun s l h => h) fun s => .ite (fun _ => ?_)
    fun _ => ?_
  · exact .fail _ (stop _)
  refine .andThen (getFirst_reads e) stop fun imgStart => ?_
  refine .andThen (getTrialActiveFwdIndex_reads e) (fun err s l h => stop err s l h.1) fun r => ?_
  have endAddr : ∀ f : Nat → M (Nat × Nat × Nat), (∀ a, OnlyReads Up (f a) Selects) →
      OnlyReads Up (getImageSetEndAddr e 0 >>= f) Selects := fun f h =>
    .andThen (getImageSetEndAddr_reads e 0) stop h
  refine .pre (P := Up) (.ite (fun _ => ?_) fun _ => ?_) fun s l h => h.1
  · refine .ite (fun one => ?_) fun _ => out _ _ _ ?_
    · refine endAddr _ fun a => .ite (fun _ => out _ _ _ ?_) fun _ => out _ _ _ ?_
      · rw [one]; decide
      · rw [one]; decide
    · split <;> decide
  · refine endAddr _ fun a => out _ _ _ ?_
    split
    · decide
    · split <;> decide

end Qapp.Fw
