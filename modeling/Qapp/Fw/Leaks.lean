import Qapp.Fw.Blocks
import Qapp.Fw.Requests
import Qapp.Fw.Termination

/-!
# Leaks

The blocks over the whole life of the module: the sessions, however they end or are started
again, and the other requests.
-/

namespace Qapp.Fw
open ByteMem Traced

variable {α : Type} {e : Env} {s t : St} {f : Block → Bool} {h l : List Event} {b : Block}
  {loc : List Block}

/-! ## The session -/

theorem releasePartition_tidy : Tidy loc releasePartition := by
  apply tidy_update
  intro s
  funext b
  cases hc : s.cxt with
  | none => rfl
  | some c => cases hk : c.partitionHdl <;> cases b <;>
      simp [St.owns, hc, hk, releaseHandle, setHandle]

theorem openPartition_tidy (e : Env) (fwdIdx id : Nat) : Tidy loc (openPartition e fwdIdx id) :=
  .bind (findPartition_tidy ..) fun _ => .bind (tidy_tune fun _ => rfl) fun _ =>
    .bind .read fun _ => .pure _

theorem newPartition_tidy (e : Env) (image : Option Nat) (id version start size : Nat) :
    Tidy loc (newPartition e image id version start size) :=
  .bind getCxt_tidy fun _ => .bind (createPartition_tidy ..) fun _ =>
    .bind (tidy_tune fun _ => rfl) fun _ => by
      cases image with
      | none => exact .pure _
      | some i => exact .bind .read fun _ => tidy_emit rfl

/-- The blocks that the end of a session frees. -/
def finFrees (digestCtx : Bool) (s : St) : List Block :=
  (match s.cxt with
    | none => []
    | some c => (if c.configBuf.isSome then [.config] else []) ++ [.tmpBuffer]) ++
  (if s.imageHdr.isSome then [.imageHdr] else []) ++
  if s.cxt.isSome then (if digestCtx then [.digest] else []) ++ [.context] else []

theorem sessionFin_uses (digestCtx : Bool) (s : St) :
    (sessionFin digestCtx s).trace.flatMap Event.uses = (finFrees digestCtx s).map .free := by
  unfold sessionFin finFrees
  cases hc : s.cxt with
  | none =>
    cases hi : s.imageHdr <;> simp [hc, hi, free, Event.uses]
  | some c =>
    have release := fun (t : St) (h : t.cxt = some c) => releasePartition_run h
    cases hi : s.imageHdr <;> cases hb : c.configBuf <;> cases digestCtx <;>
      simp [hc, hi, hb, free, Event.uses, release]

/-- At the end of a session only the memory parameters are left; `digest` may be missing. -/
theorem sessionFin_tallied {digestCtx : Bool}
    (tallied : Tallied (fun b => s.owns b && (decide (b ≠ .digest) || digestCtx)) h) :
    Tallied ((sessionFin digestCtx s).state.holds []) (h ++ (sessionFin digestCtx s).trace) := by
  have freed := tallied.frees (sessionFin_uses digestCtx s)
    (by unfold finFrees; cases s.cxt <;> cases s.imageHdr <;> cases digestCtx <;> simp <;> grind)
    (by
      unfold finFrees
      intro b mem
      cases hc : s.cxt <;> cases hi : s.imageHdr <;> cases digestCtx <;> cases b <;>
        simp_all [St.owns])
  obtain ⟨hs, l, run, -⟩ := sessionFin_run digestCtx s
  rw [run] at freed ⊢
  convert freed using 1
  funext b
  cases hc : s.cxt <;> cases hi : s.imageHdr <;> cases b <;>
    simp [St.holds, St.owns, finFrees, hc, hi]

theorem sessionFin_tidy : Tidy [] (sessionFin true) := by
  constructor
  intro s h tallied
  apply sessionFin_tallied
  convert tallied using 1
  funext b
  simp [St.holds]

/-- The last block of a context that is set up already. -/
theorem startDigest_tallied :
    Triple (fun s l => Tallied (fun b => s.owns b && (decide (b ≠ .digest) || false)) l ∧
      s.cxt = some freshCxt) (do
        if !(← malloc .digest) then
          sessionFin false
          Act.fail .insufficientMemory
        else Act.emit .start) fun (_ : Except Status Unit) s l => Tallied (s.holds []) l := by
  apply Triple.of
  rintro s l ⟨tallied, fresh⟩
  rw [Act.bind_run]
  rcases malloc_cases .digest s with run | ⟨run, -⟩
  · have started := (tallied.alloc (b := .digest) (.inr (by simp))).start
    rw [run, Act.andThen_ok, ← List.append_assoc]
    simp only [Bool.not_true, Bool.false_eq_true, if_false, Act.emit_run]
    convert started using 1
    funext b
    cases b <;> simp [St.holds, St.owns, freshCxt, fresh]
  · have idle := tallied.denied (b := .digest) (.inr (by simp))
    rw [Function.update_eq_self_iff.mpr (by simp)] at idle
    have ended := sessionFin_tallied (s := { s with oom := s.oom.tail }) idle
    obtain ⟨hs, k, fin, -⟩ := sessionFin_run false { s with oom := s.oom.tail }
    rw [fin] at ended
    rw [run, Act.andThen_ok, ← List.append_assoc]
    simpa [Act.bind_run, fin] using ended

/-- With a context there are its buffer and its digest. -/
theorem beginSession_tallied : Triple (fun s l => Tallied (s.holds []) l ∧ s.cxt = none) (do
    if !(← malloc .context) then
      sessionFin true
      Act.fail .insufficientMemory
    else if !(← malloc .tmpBuffer) then
      free .context
      Act.fail .insufficientMemory
    else
      Act.update fun s => { s with cxt := some freshCxt }
      if !(← malloc .digest) then
        sessionFin false
        Act.fail .insufficientMemory
      else Act.emit .start) fun (_ : Except Status Unit) s l => Tallied (s.holds []) l := by
  have idle (b : Block) (loc : List Block) (new : b = .context ∨ b = .tmpBuffer) (fresh : b ∉ loc)
      (s : St) (none : s.cxt = none) : s.holds loc b = false := by
    obtain rfl | rfl := new <;> simp [St.holds, St.owns, none, fresh]
  have denied (b : Block) (loc : List Block) (new : b = .context ∨ b = .tmpBuffer)
      (fresh : b ∉ loc) (s : St) (none : s.cxt = none) :
      Function.update (s.holds loc) b false = s.holds loc :=
    Function.update_eq_self_iff.mpr (idle b loc new fresh s none).symm
  apply malloc_triple (fun s none => .inr (idle _ _ (.inl rfl) (by simp) s none)) fun _ none => none
  · apply malloc_triple (fun s none => .inr (idle _ _ (.inr rfl) (by simp) s none))
      fun _ none => none
    · apply Sound.andThen (K := fun r s l => r = .ok () ∧
        Tallied (fun b => s.owns b && (decide (b ≠ .digest) || false)) l ∧ s.cxt = some freshCxt)
      · apply Triple.of
        rintro s l ⟨tallied, none⟩
        refine ⟨rfl, ?_, rfl⟩
        rw [Act.update_run, List.append_nil]
        convert tallied using 1
        funext b
        cases b <;> simp [St.holds, St.owns, none, freshCxt]
      · rintro err s l ⟨⟨⟩, -⟩
      · exact fun _ => startDigest_tallied.pre fun s l begun => begun.2
    · apply Triple.of
      rintro s l ⟨tallied, none⟩
      rw [denied _ _ (.inr rfl) (by simp) s none] at tallied
      have freed := tallied.free (b := .context) (by simp [St.holds])
      rw [holds_cons (by simp [St.owns, none]) (by simp)] at freed
      exact freed
  · apply Triple.of
    rintro s l ⟨tallied, none⟩
    rw [denied _ _ (.inl rfl) (by simp) s none] at tallied
    exact (Within.bind sessionFin_tidy fun _ => .fail _).run s l tallied

theorem sessionInit_tidy (e : Env) : Tidy [] (sessionInit e) := by
  apply Within.bind (.attempt (init_tidy e))
  intro r
  cases r with
  | error => exact .bind sessionFin_tidy fun _ => .fail _
  | ok =>
    constructor
    intro s h tallied
    dsimp only
    rw [Act.bind_ok (Act.read_run s), Act.ite_run]
    split
    · have started := tallied.start
      simp only [Act.bind_run, Act.update_run, Act.andThen_ok, Act.emit_run, List.nil_append]
      convert started using 1
      funext b
      cases hc : s.cxt <;> cases b <;> simp_all [St.holds, St.owns, freshCxt]
    · rename_i closed
      exact (beginSession_tallied s h ⟨tallied, by simpa using closed⟩).2

/-! ## Code that does not fail -/

/-- As long as there is a session, the code comes to its end, and the session stays. -/
structure Sure (m : M α) : Prop where
  stays : ∀ s, s.cxt.isSome → (m s).state.cxt.isSome
  ok : ∀ s, s.cxt.isSome → ∃ a, (m s).res = .ok a

namespace Sure
variable {β : Type} {m : M α}

theorem pure (a : α) : Sure (Pure.pure a : M α) := ⟨fun _ h => h, fun _ _ => ⟨a, rfl⟩⟩

theorem read : Sure (Act.read : M St) := ⟨fun _ h => h, fun s _ => ⟨s, rfl⟩⟩

theorem update {k : St → St} (stays : ∀ s, s.cxt.isSome → (k s).cxt.isSome) :
    Sure (Act.update k : M Unit) := ⟨stays, fun _ _ => ⟨(), rfl⟩⟩

theorem bind {k : α → M β} (first : Sure m) (rest : ∀ a, Sure (k a)) : Sure (m >>= k) := by
  constructor
  · intro s open_
    obtain ⟨a, ok⟩ := first.ok s open_
    simp only [Act.bind_run, Out.andThen, ok]
    exact (rest a).stays _ (first.stays s open_)
  · intro s open_
    obtain ⟨a, ok⟩ := first.ok s open_
    simp only [Act.bind_run, Out.andThen, ok]
    exact (rest a).ok _ (first.stays s open_)

theorem attempt (stays : ∀ s, s.cxt.isSome → (m s).state.cxt.isSome) : Sure m.attempt :=
  ⟨stays, fun s _ => ⟨(m s).res, rfl⟩⟩

theorem ite {c : Prop} [Decidable c] {k : M α} (yes : Sure m) (no : Sure k) :
    Sure (if c then m else k) := by
  split
  · exact yes
  · exact no

theorem when {c : Prop} [Decidable c] {m : M Unit} (h : Sure m) : Sure (Act.when c m) :=
  ite h (pure ())

/-- What keeps the session open keeps it open when it fails, too. -/
theorem of_scope {β : Type} {S : Scope β} (h : Within S.frame m) (ends : S.ends = false) :
    Sure m.attempt := attempt fun s => (h.run s).stays ends

end Sure

theorem updateCxt_sure (k : Cxt → Cxt) : Sure (updateCxt k) :=
  .update fun s open_ => by simpa using open_

theorem getCxt_sure : Sure getCxt := by
  constructor
  · intro s open_
    obtain ⟨c, hc⟩ := Option.isSome_iff_exists.mp open_
    rwa [getCxt_run hc]
  · intro s open_
    obtain ⟨c, hc⟩ := Option.isSome_iff_exists.mp open_
    rw [getCxt_run hc]
    exact ⟨c, rfl⟩

theorem flashRead_sure (e : Env) (addr size : Nat) : Sure (flashRead e addr size) :=
  .bind .read fun s => .ite (.pure _) <| .bind (.update fun _ open_ => open_) fun _ => by
    cases s.readFault <;> exact .pure _

theorem readPartition_sure (e : Env) (hdl : Option Nat) (offset maxBytes : Nat) :
    Sure (readPartition e hdl offset maxBytes) :=
  .bind .read fun _ => by
    cases hdl with
    | none => exact .pure _
    | some k =>
      exact .ite (.pure _) <| .ite (.bind (.bind .read fun s => .bind (.update fun _ open_ => open_)
        fun _ => by cases s.readFault <;> exact .pure _) fun ⟨_, _⟩ => .pure _)
        (.bind (flashRead_sure ..) fun ⟨_, _⟩ => .pure _)

theorem hashBlocks_sure (e : Env) (hdl n offset : Nat) : Sure (hashBlocks e hdl n offset) := by
  induction n generalizing offset with
  | zero => exact .pure _
  | succ n ih =>
    exact .bind (readPartition_sure ..) fun ⟨_, _⟩ => .bind (.when (updateCxt_sure _)) fun _ => ih _

theorem checkDownload_sure (e : Env) (activeFwd i : Nat) (hs : List ImageHdr) :
    Sure (checkDownload e activeFwd i hs) := by
  induction hs generalizing i with
  | nil => exact .pure _
  | cons h hs ih =>
    refine .bind (updateCxt_sure _) fun _ => .bind (.when ?_) fun _ => ih _
    refine .bind (.of_scope (findPartition_steady ..) rfl) fun r => ?_
    cases r with
    | error => exact .pure _
    | ok k =>
      refine .bind (updateCxt_sure _) fun _ => .bind .read fun _ => ?_
      refine .bind (hashBlocks_sure ..) fun _ => .bind (.update fun _ open_ => open_) fun _ => ?_
      refine .bind (.bind getCxt_sure fun _ => .bind (updateCxt_sure _) fun _ => .pure _) fun _ =>
        ?_
      exact .when (updateCxt_sure _)

theorem releasePartition_sure : Sure releasePartition :=
  ⟨fun s => (releasePartition_steady.run s).stays rfl, fun _ _ => ⟨(), rfl⟩⟩

theorem duplicateImages_sure (e : Env) (active : Nat) (imgs : List ImageHdr)
    (ret : Option Status) : Sure (duplicateImages e active imgs ret) := by
  induction imgs generalizing ret with
  | nil => exact .pure _
  | cons img imgs ih =>
    refine .bind getCxt_sure fun c => .ite ?_ (.bind (updateCxt_sure _) fun _ => ih _)
    refine .bind (.of_scope (findPartition_steady ..) rfl) fun r => ?_
    cases r with
    | error => exact .pure _
    | ok hdl =>
      refine .bind (.of_scope (newPartition_steady ..) rfl) fun r => ?_
      cases r with
      | error => exact .bind (.update fun _ open_ => open_) fun _ => .pure _
      | ok =>
        refine .bind (.of_scope (copyImage_keeping ..) rfl) fun r => ?_
        refine .bind (.update fun _ open_ => open_) fun _ => .bind releasePartition_sure fun _ => ?_
        exact .bind (updateCxt_sure _) fun _ => ih _

/-- What does not fail leaves the blocks to the rest of the code. -/
theorem Sure.tallied {m : M α} (sure : Sure m) (tidy : Tidy loc m) {β : Type} {k : α → M β}
    {Q : Except Status β → St → List Event → Prop}
    (rest : ∀ a, Triple (fun s l => Tallied (s.holds loc) l ∧ s.cxt.isSome = true) (k a) Q) :
    Triple (fun s l => Tallied (s.holds loc) l ∧ s.cxt.isSome = true) (m >>= k) Q := by
  apply Sound.andThen (K := fun r s l => (∃ a, r = .ok a) ∧ Tallied (s.holds loc) l ∧
    s.cxt.isSome = true)
  · apply Triple.of
    rintro s l ⟨tallied, open_⟩
    exact ⟨sure.ok s open_, tidy.run s l tallied, sure.stays s open_⟩
  · rintro err s l ⟨⟨a, ⟨⟩⟩, -⟩
  · exact fun a => (rest a).pre fun s l after => after.2

/-- Where the context is there, it stays there for the rest. -/
theorem tidy_getCxt {k : Cxt → M α} (rest : ∀ c, Triple
    (fun s l => Tallied (s.holds []) l ∧ s.cxt.isSome = true) (k c)
      fun _ s l => Tallied (s.holds []) l) : Tidy [] (getCxt >>= k) := by
  constructor
  intro s h tallied
  cases hc : s.cxt with
  | none =>
    rw [Act.bind_run, getCxt_none hc, Act.andThen_error]
    simpa using tallied
  | some c =>
    rw [Act.bind_ok (getCxt_run hc)]
    exact (rest c s h ⟨tallied, by simp [hc]⟩).2

/-! ## The header -/

theorem digestUpdate_tidy (bytes : List UInt8) : Tidy loc (digestUpdate bytes) :=
  tidy_tune fun _ => rfl

theorem digestFinish_tidy (e : Env) : Tidy loc (digestFinish e) :=
  .bind getCxt_tidy fun _ => .bind (tidy_tune fun _ => rfl) fun _ => .pure _

theorem dropConfigBuf_tidy : Tidy [] dropConfigBuf := by
  constructor
  intro s h tallied
  unfold dropConfigBuf
  rw [Act.bind_ok (Act.read_run s), Act.ite_run]
  split
  · rename_i held
    have freed := tallied.free (b := .config) (by simpa [St.holds, St.owns] using held)
    simp only [Act.bind_run, free, Act.emit_run, Act.andThen_ok, updateCxt, Act.update_run,
      List.append_nil]
    convert freed using 1
    funext b
    cases hc : s.cxt <;> cases b <;> simp [St.holds, St.owns, hc]
  · simpa using tallied

/-- There is a context, which holds a `config_buf` or not. -/
def HasConfig (held : Bool) (s : St) : Prop := ∃ c, s.cxt = some c ∧ c.configBuf.isSome = held

/-- A part that is tidy and leaves `config_buf`, before the rest. -/
theorem HasConfig.bind {β : Type} {held : Bool} {m : M α} (tidy : Tidy [] m)
    (stays : ∀ s, HasConfig held s → HasConfig held (m s).state) {k : α → M β}
    (rest : ∀ a, Triple (fun s l => Tallied (s.holds []) l ∧ HasConfig held s) (k a)
      fun _ s l => Tallied (s.holds []) l) :
    Triple (fun s l => Tallied (s.holds []) l ∧ HasConfig held s) (m >>= k)
      fun _ s l => Tallied (s.holds []) l := by
  apply Sound.andThen (K := fun _ s l => Tallied (s.holds []) l ∧ HasConfig held s)
  · exact Triple.of fun s l before => ⟨tidy.run s l before.1, stays s before.2⟩
  · exact fun _ s l after => after.1
  · exact rest

/-- `config_buf` is set. -/
theorem HasConfig.fill (held : Bool) {k : Cxt → Cxt} (fills : ∀ c, (k c).configBuf.isSome = true)
    (owned : (if held then [] else [.config]) = loc) :
    Triple (fun s l => Tallied (s.holds loc) l ∧ HasConfig held s) (updateCxt k)
      fun _ s l => Tallied (s.holds []) l := by
  apply Triple.of
  rintro s l ⟨tallied, c, hc, config⟩
  subst owned
  rw [updateCxt_run hc, List.append_nil]
  convert tallied using 1
  funext b
  cases held <;> cases b <;> simp_all [St.holds, St.owns, St.withCxt]

/-- The header is collected in a buffer of the context. -/
theorem receiveConfigFile_tidy (buf : Mem) {note : Nat → Event} (quiet : ∀ n, (note n).uses = []) :
    Tidy [] (receiveConfigFile buf note) := by
  have emit (n : Nat) : Tidy [] (Act.emit (note n) : M Unit) := tidy_emit (quiet n)
  have more : Tidy [] (setState .receiveData) := tidy_tune fun _ => rfl
  have stop {held : Bool} (err : Status) :
      Triple (fun s l => Tallied (s.holds []) l ∧ HasConfig held s) (Act.fail err)
        fun (_ : Except Status (Option (List UInt8))) s l => Tallied (s.holds []) l :=
    .fail _ fun _ _ h => h.1
  constructor
  intro s h tallied
  unfold receiveConfigFile
  cases hc : s.cxt with
  | none =>
    rw [Act.bind_run, getCxt_none hc, Act.andThen_error]
    simpa using tallied
  | some c =>
    rw [Act.bind_ok (getCxt_run hc)]
    cases hb : c.configBuf with
    | some b =>
      have held : c.configBuf.isSome = true := by simp [hb]
      dsimp only
      refine (HasConfig.bind (emit _) (fun _ has => has) (fun _ => ?_) s h
        ⟨tallied, c, hc, held⟩).2
      refine .andThen (HasConfig.fill true (fun _ => rfl) rfl) (fun _ _ _ h => h) fun _ => ?_
      exact Tidy.kept (.ite (.bind more fun _ => .pure _) (.pure _))
    | none =>
      have missing : c.configBuf.isSome = false := by simp [hb]
      dsimp only
      rw [Act.ite_run]
      split
      · simpa using tallied
      refine (HasConfig.bind (emit _) (fun _ has => has) (fun _ => ?_) s h
        ⟨tallied, c, hc, missing⟩).2
      refine .ite (fun _ => stop _) fun _ => .ite (fun _ => stop _) fun _ => ?_
      apply HasConfig.bind
      · exact tidy_tune fun _ => rfl
      · rintro s ⟨c, hc, config⟩
        rw [updateCxt_run hc]
        exact ⟨_, rfl, config⟩
      refine fun _ => .ite (fun _ => stop _) fun _ => ?_
      apply malloc_triple
      · rintro s ⟨c, hc, config⟩
        simpa [St.holds, St.owns, hc] using config
      · exact fun _ has => has
      · refine .ite (fun none => by simp at none) fun _ => ?_
        refine .andThen (K := fun r s l => r = .ok () ∧ Tallied (s.holds [.config]) l ∧
          HasConfig false s) ?_ ?_ fun _ => ?_
        · exact Triple.of fun s l before => ⟨rfl, before.1.silent (by simp [quiet]), before.2⟩
        · rintro err s l ⟨⟨⟩, -⟩
        · refine .andThen (.pre (HasConfig.fill false (fun _ => rfl) rfl) fun s l h => h.2)
            (fun _ _ _ h => h) fun _ => ?_
          exact Tidy.kept (.ite (.bind (tidy_tune fun _ => rfl) fun _ => .bind more fun _ =>
            .pure _) (.pure _))
      · refine .ite (fun _ => ?_) fun some => absurd rfl some
        apply Sound.fail
        rintro s l ⟨denied, c, hc, config⟩
        rwa [Function.update_eq_self_iff.mpr] at denied
        simpa [St.holds, St.owns, hc] using config.symm

theorem checkDownload_tidy (e : Env) (activeFwd i : Nat) (hs : List ImageHdr) :
    Tidy loc (checkDownload e activeFwd i hs) := by
  have tune (k : Cxt → Cxt) (same : ∀ c, (k c).configBuf = c.configBuf) : Tidy loc (updateCxt k) :=
    tidy_tune same
  have blocks (hdl n offset : Nat) : Tidy loc (hashBlocks e hdl n offset) := by
    induction n generalizing offset with
    | zero => exact .pure _
    | succ n ih =>
      exact .bind (readPartition_tidy ..) fun ⟨_, _⟩ => .bind (.when (tune _ fun _ => rfl)) fun _ =>
        ih _
  induction hs generalizing i with
  | nil => exact .pure _
  | cons h hs ih =>
    refine .bind (tune _ fun _ => rfl) fun _ => .bind (.when ?_) fun _ => ih _
    refine .bind (.attempt (findPartition_tidy ..)) fun r => ?_
    cases r with
    | error => exact .pure _
    | ok k =>
      refine .bind (tune _ fun _ => rfl) fun _ => .bind .read fun _ => .bind (blocks ..) fun _ => ?_
      refine .bind (releaseHandle_tidy _) fun _ => .bind (digestFinish_tidy e) fun _ => ?_
      exact .when (tune _ fun _ => rfl)

theorem checkSums_tidy (a : EntrySums) : Tidy loc (checkSums a) :=
  .bind getCxt_tidy fun _ => .ite (.fail _) <| .ite (.fail _) <| .ite (.fail _) <|
    .bind .read fun s => by
      cases selectSblTrialFde s.rram with
      | none => exact .fail _
      | some sbl => exact .bind (tidy_tune fun _ => rfl) fun _ => .ite (.fail _) (.pure _)

theorem writeFwdHeader_tidy (e : Env) (b : List UInt8) : Tidy loc (writeFwdHeader e b) :=
  .bind getCxt_tidy fun _ => .bind (setFwdInfo_tidy ..) fun _ => .bind (setFwdInfo_tidy ..) fun _ =>
    setFwdInfo_tidy ..

/-- The hash buffer is freed after the flags are set. -/
theorem setFlags_tidy (e : Env) {m : M Unit} (rest : Tidy [] m) (hdrs : List ImageHdr) :
    Triple (fun s l => Tallied (s.holds []) l ∧ s.cxt.isSome = true) (do
      if !(← malloc .hashBuf) then Act.fail .insufficientMemory
      else
        checkDownload e (activeFwd (← Act.read).rram) 0 hdrs
        free .hashBuf
        m) fun _ s l => Tallied (s.holds []) l := by
  apply malloc_triple
  · exact fun s _ => .inr rfl
  · exact fun _ open_ => open_
  · refine .ite (fun none => by simp at none) fun _ => .bind (M := fun _ s l =>
      Tallied (s.holds [.hashBuf]) l ∧ s.cxt.isSome = true) (.read fun _ _ h => h) fun _ => ?_
    refine (checkDownload_sure ..).tallied (checkDownload_tidy ..) fun _ => ?_
    exact .andThen (.pre (free_triple (fun _ => rfl) (by simp)) fun _ _ h => h.1)
      (fun _ _ _ h => h) fun _ => rest.kept
  · refine .ite (fun _ => .fail _ ?_) fun some => absurd rfl some
    rintro s l ⟨denied, -⟩
    have same : Function.update (s.holds []) .hashBuf false = s.holds [] :=
      Function.update_eq_self_iff.mpr rfl
    rwa [same] at denied

/-- The header array replaces the one of an earlier session, which is lost. -/
theorem acceptConfigFile_tidy (e : Env) (b : List UInt8) : Tidy [] (acceptConfigFile e b) := by
  refine .bind (tidy_tune fun _ => rfl) fun _ => .bind (tidy_emit rfl) fun _ => .ite (.fail _) ?_
  refine .bind (.orFail (writeFwdHeader_tidy ..) _) fun _ =>
    .bind (tidy_tune fun _ => rfl) fun _ => ?_
  constructor
  intro s h tallied
  refine (malloc_triple (P := fun _ => True) (Q := fun _ s l => Tallied (s.holds []) l)
    (fun _ _ => .inl rfl) (fun _ _ => trivial) ?_ ?_ s h ⟨tallied, trivial⟩).2
  · refine .ite (fun none => by simp at none) fun _ => ?_
    refine .andThen (update_takes fun s _ => ?_) (fun _ _ _ h => h) fun _ => ?_
    · funext b
      cases b <;> simp [St.holds, St.owns]
    · cases (checkEntries (parseImageHdrs (hdrNumImages b) (b.drop hdrPart1Len))
        ⟨0, 0, false, false, 0⟩).2 with
      | none => exact Tidy.kept (.fail _)
      | some a =>
        have rest : Tidy [] (checkSums a) := checkSums_tidy a
        refine .andThen rest.kept (fun _ _ _ h => h) fun _ => ?_
        refine .andThen dropConfigBuf_tidy.kept (fun _ _ _ h => h) fun _ => ?_
        refine Tidy.kept (tidy_getCxt fun c => .ite (fun _ => ?_) fun _ => ?_)
        · refine .pre (P := fun s l => Tallied (s.holds []) l) (Tidy.kept
            (.bind (tidy_tune ?_) fun _ => tidy_emit rfl)) fun s l h => h.1
          exact fun _ => rfl
        · refine setFlags_tidy e (.bind getCxt_tidy fun c => ?_) _
          exact .bind (tidy_tune fun _ => rfl) fun _ => tidy_emit rfl
  · refine .ite (fun _ => ?_) fun some => absurd rfl some
    refine .andThen (K := fun _ s l => Tallied (s.holds []) l) (Triple.of ?_) (fun _ _ _ h => h)
      fun _ => Tidy.kept (.fail _)
    rintro s l ⟨denied, -⟩
    rw [Act.update_run, List.append_nil]
    convert denied using 1
    funext b
    cases b <;> simp [St.holds, St.owns]

theorem processConfigFile_tidy (e : Env) (buf : Mem) {note : Nat → Event}
    (quiet : ∀ n, (note n).uses = []) : Tidy [] (processConfigFile e buf note) :=
  .cleanUp (.bind (receiveConfigFile_tidy buf quiet) fun
    | none => .pure _
    | some b => acceptConfigFile_tidy e b) dropConfigBuf_tidy

/-! ## The images -/

theorem readImageHdr_tidy (p : Packet) (i : Nat) : Tidy loc (readImageHdr p i) :=
  .bind .read fun _ => .bind (tidy_emit rfl) fun _ => .pure _

theorem padHash_tidy (img : ImageHdr) : Tidy [] (padHash img) := by
  refine .bind getCxt_tidy fun c => .ite ?_ (.pure _)
  apply malloc_tidy (fun _ => rfl) (by simp)
  · refine .ite (fun _ => ?_) fun none => absurd rfl none
    apply Sound.andThen (K := fun r s l => r = .ok () ∧ Tallied (s.holds [.hashBuf]) l)
    · exact Triple.of fun s l tallied => ⟨rfl, (digestUpdate_tidy _).run s l tallied⟩
    · rintro err s l ⟨⟨⟩, -⟩
    · exact fun _ => (free_triple (fun _ => rfl) (by simp)).pre fun _ _ h => h.2
  · exact .fail _

theorem verifyImageHash_tidy (e : Env) (img : ImageHdr) : Tidy [] (verifyImageHash e img) :=
  .bind getCxt_tidy fun _ => .bind (padHash_tidy _) fun _ => .bind getCxt_tidy fun _ =>
    .bind (digestFinish_tidy e) fun _ => .bind (tidy_emit rfl) fun _ => .ite (.pure _) (.fail _)

theorem createFs1_tidy (e : Env) (img : ImageHdr) : Tidy loc (createFs1 e img) :=
  .bind .read fun _ => .bind (.orFail (openPartition_tidy ..) _) fun _ =>
    .bind releasePartition_tidy fun _ => .ite (.fail _) <| .bind getCxt_tidy fun _ =>
      .orFail (newPartition_tidy ..) _

theorem startImage_tidy (e : Env) (img : ImageHdr) : Tidy loc (startImage e img) :=
  .bind (tidy_tune fun _ => rfl) fun _ => .ite (createFs1_tidy ..) <| .bind getCxt_tidy fun _ =>
    .bind (.orFail (newPartition_tidy ..) _) fun _ => .bind getCxt_tidy fun _ =>
      .orFail (erasePartition_tidy ..) _

theorem nextImage_tidy (img : ImageHdr) : Tidy loc (nextImage img) :=
  .bind releasePartition_tidy fun _ => tidy_tune fun _ => rfl

theorem writeImageData_tidy (e : Env) (p : Packet) : Tidy [] (writeImageData e p) :=
  .bind getCxt_tidy fun _ => .bind (.when (tidy_tune fun _ => rfl)) fun _ => .ite (.fail _) <|
    .bind (tidy_emit rfl) fun _ => .bind (tidy_tune fun _ => rfl) fun _ =>
      .bind (.orFail (.ite (erasePartition_tidy ..) (.pure _)) _) fun _ =>
        .bind (.orFail (writePartition_tidy (by simp) ..) _) fun _ => tidy_tune fun _ => rfl

theorem finishImage_tidy (e : Env) (img : ImageHdr) : Tidy [] (finishImage e img) :=
  .bind (.cleanUp (verifyImageHash_tidy ..) releasePartition_tidy) fun _ =>
    .bind (nextImage_tidy _) fun _ => .bind getCxt_tidy fun _ =>
      .ite (.bind (tidy_tune fun _ => rfl) fun _ => .pure _) <|
        .ite (.bind (tidy_tune fun _ => rfl) fun _ => .pure _) (.pure _)

theorem processReceiveImage_tidy (e : Env) (p : Packet) (fuel : Nat) :
    Tidy [] (processReceiveImage e p fuel) := by
  induction fuel with
  | zero => exact .pure _
  | succ fuel ih =>
    refine .bind getCxt_tidy fun c => .ite (.pure _) ?_
    refine .bind (readImageHdr_tidy ..) fun img => .bind (.when (startImage_tidy ..)) fun _ =>
      .ite ?_ ?_
    · exact .bind (nextImage_tidy _) fun _ => .bind getCxt_tidy fun _ =>
        .ite (tidy_tune fun _ => rfl) ih
    · refine .bind (.when (tidy_tune fun _ => rfl)) fun _ => ?_
      refine .bind (writeImageData_tidy e p) fun _ => ?_
      refine .bind (.bind getCxt_tidy fun _ => .ite (finishImage_tidy ..) (.pure _)) fun _ =>
        .ite (.pure _) ?_
      refine .bind (.orFail (.bind getCxt_tidy fun _ => .ite (erasePartition_tidy ..) (.pure _)) _)
        fun _ => ?_
      exact .ite (.pure _) ih

/-! ## Copying from the running firmware -/

theorem copyFs_tidy (e : Env) (hdl₁ hdl₂ n offset : Nat) :
    Tidy [.blockBuf] (copyFs e hdl₁ hdl₂ n offset) := by
  induction n generalizing offset with
  | zero => exact .pure _
  | succ n ih =>
    exact .bind (readPartition_tidy ..) fun ⟨_, _⟩ => .ite (.fail _) <|
      .bind (.orFail (erasePartition_tidy ..) _) fun _ =>
        .bind (.orFail (writePartition_tidy (by simp) ..) _) fun _ => ih _

/-- The block buffer is freed, and then the rest is run. -/
theorem freeBlockBuf_kept {m : M α} (rest : Tidy [] m) :
    Triple (fun s l => Tallied (s.holds [.blockBuf]) l) (do
      free .blockBuf
      m) fun _ s l => Tallied (s.holds []) l :=
  .andThen (free_triple (fun _ => rfl) (by simp)) (fun _ _ _ h => h) fun _ => rest.kept

theorem processDuplicateFs_tidy (e : Env) : Tidy [] (processDuplicateFs e) := by
  apply malloc_tidy (fun _ => rfl) (by simp) _ (.fail _)
  refine .ite (fun none => by simp at none) fun _ => .bind (M := fun _ s l =>
    Tallied (s.holds [.blockBuf]) l) (.read fun _ _ h => h) fun s => ?_
  refine .attempt_bind (findPartition_tidy ..).kept fun r => ?_
  cases r with
  | error => exact freeBlockBuf_kept (.fail _)
  | ok hdl₁ =>
    refine .attempt_bind (findPartition_tidy ..).kept fun r => ?_
    cases r with
    | error => exact freeBlockBuf_kept (.bind (releaseHandle_tidy _) fun _ => .fail _)
    | ok hdl₂ =>
      refine .bind (M := fun _ s l => Tallied (s.holds [.blockBuf]) l) (.read fun _ _ h => h)
        fun s => .attempt_bind (copyFs_tidy ..).kept fun r => freeBlockBuf_kept ?_
      refine .bind (releaseHandle_tidy _) fun _ => .bind (releaseHandle_tidy _) fun _ => ?_
      cases r with
      | ok => exact .pure _
      | error err => exact .fail _

theorem copyImage_tidy (e : Env) (index hdl n offset : Nat) :
    Tidy [.blockBuf] (copyImage e index hdl n offset) := by
  induction n generalizing offset with
  | zero => exact .pure _
  | succ n ih =>
    exact .bind (readPartition_tidy ..) fun ⟨_, _⟩ => .bind getCxt_tidy fun _ =>
      .bind (.orFail (erasePartition_tidy ..) _) fun _ =>
        .bind (.orFail (writePartition_tidy (by simp) ..) _) fun _ => ih _

theorem duplicateImages_tidy (e : Env) (active : Nat) (imgs : List ImageHdr)
    (ret : Option Status) : Tidy [.blockBuf] (duplicateImages e active imgs ret) := by
  induction imgs generalizing ret with
  | nil => exact .pure _
  | cons img imgs ih =>
    refine .bind getCxt_tidy fun c => .ite ?_ (.bind (tidy_tune fun _ => rfl) fun _ => ih _)
    refine .bind (.attempt (findPartition_tidy ..)) fun r => ?_
    cases r with
    | error => exact .pure _
    | ok hdl =>
      refine .bind (.attempt (newPartition_tidy ..)) fun r => ?_
      cases r with
      | error => exact .bind (releaseHandle_tidy _) fun _ => .pure _
      | ok =>
        refine .bind (.attempt (copyImage_tidy ..)) fun r => ?_
        refine .bind (releaseHandle_tidy _) fun _ => .bind releasePartition_tidy fun _ => ?_
        exact .bind (tidy_tune fun _ => rfl) fun _ => ih _

theorem processDuplicateImages_kept (e : Env) :
    Triple (fun s l => Tallied (s.holds []) l ∧ s.cxt.isSome = true) (processDuplicateImages e)
      fun _ s l => Tallied (s.holds []) l := by
  refine .bind (M := fun _ s l => Tallied (s.holds []) l ∧ s.cxt.isSome = true)
    (.read fun _ _ h => h) fun s₀ => ?_
  refine malloc_triple (fun _ _ => .inr rfl) (fun _ open_ => open_) ?_ ?_
  · refine .ite (fun none => by simp at none) fun _ => ?_
    apply (updateCxt_sure _).tallied
    · exact tidy_tune fun _ => rfl
    intro _
    refine (duplicateImages_sure ..).tallied (duplicateImages_tidy ..) fun ret => ?_
    refine releasePartition_sure.tallied releasePartition_tidy fun _ => ?_
    refine .pre (freeBlockBuf_kept ?_) fun _ _ h => h.1
    cases ret with
    | none => exact .pure _
    | some err => exact .fail _
  · refine .ite (fun _ => ?_) fun some => absurd rfl some
    have same (s : St) : Function.update (s.holds []) .blockBuf false = s.holds [] :=
      Function.update_eq_self_iff.mpr rfl
    have leave : Tidy [] (do
        releasePartition
        Act.fail .insufficientMemory : M Unit) := .bind releasePartition_tidy fun _ => .fail _
    exact leave.kept.pre fun s l h => same s ▸ h.1

/-! ## The state machine -/

theorem sessionFinalize_tidy (e : Env) : Tidy [] (sessionFinalize e) :=
  .bind getCxt_tidy fun _ => .bind (.attempt (setFwdInfo_tidy ..)) fun _ =>
    .bind (.bind (.attempt (findPartition_tidy ..)) fun
      | .ok _ => .bind .read fun _ => .bind (.attempt (setSblTrialFde_tidy ..)) fun _ => .pure _
      | .error _ => .pure _) fun _ =>
    .bind sessionFin_tidy fun _ => .when (tidy_emit rfl)

theorem keepPartition_tidy (e : Env) (id : Nat) (c : Client) : Tidy loc (keepPartition e id c) :=
  .bind releasePartition_tidy fun _ => .bind (.orFail (newPartition_tidy ..) _) fun _ =>
    .bind (tidy_tune fun _ => rfl) fun _ => releasePartition_tidy

theorem keepRamdump_tidy (e : Env) : Tidy loc (keepRamdump e) :=
  .bind .read fun _ => .bind (.attempt (openPartition_tidy ..)) fun
    | .error _ => .pure _
    | .ok _ => .bind (.bind getCxt_tidy fun _ => .bind (readPartition_tidy ..) fun ⟨_, _⟩ =>
        .ite (.fail _) <| .ite (.orFail (erasePartition_tidy ..) _) (.pure _)) fun _ =>
      keepPartition_tidy ..

theorem keepUserdata_tidy (e : Env) : Tidy loc (keepUserdata e) :=
  .bind .read fun _ => .bind (.attempt (openPartition_tidy ..)) fun
    | .error _ => .pure _
    | .ok _ => keepPartition_tidy ..

theorem prepareFs_tidy (e : Env) : Tidy loc (prepareFs e) :=
  .bind .read fun _ => .bind (.orFail (openPartition_tidy ..) _) fun _ =>
    .bind (keepPartition_tidy ..) fun _ => .bind (keepRamdump_tidy e) fun _ =>
      .bind (keepUserdata_tidy e) fun _ => tidy_tune fun _ => rfl

theorem prepareConnect_tidy (e : Env) (p : Packet) : Tidy loc (prepareConnect e p) :=
  .bind getCxt_tidy fun _ => .ite (tidy_tune fun _ => rfl) <|
    .bind (tidy_tune fun _ => rfl) fun _ => .bind getCxt_tidy fun _ =>
      .bind (readImageHdr_tidy ..) fun _ => .ite
        (.bind (createFs1_tidy ..) fun _ => .bind releasePartition_tidy fun _ =>
          tidy_tune fun _ => rfl)
        (.ite (tidy_tune fun _ => rfl) (tidy_tune fun _ => rfl))

theorem getTrialInfo_tidy (e : Env) : Tidy [] (getTrialInfo e) :=
  .bind (.orFail (selectTrialFwd_tidy e) _) fun ⟨_, _, _⟩ => .bind (tidy_tune fun _ => rfl) fun _ =>
    .bind .read fun _ => .ite (.fail _) <| .bind (tidy_emit rfl) fun _ => tidy_tune fun _ => rfl

theorem eraseSecondFs_tidy (e : Env) : Tidy loc (eraseSecondFs e) :=
  .bind .read fun _ => .bind (.orFail (openPartition_tidy ..) _) fun _ => .bind getCxt_tidy fun _ =>
    .bind (.orFail (erasePartition_tidy ..) _) fun _ => .bind releasePartition_tidy fun _ =>
      tidy_tune fun _ => rfl

theorem Buffer.note_uses (buffer : Buffer) (n : Nat) : (buffer.note n).uses = [] := by
  cases buffer <;> rfl

theorem sessionStep_tidy (e : Env) (p : Packet) (buffer : Buffer) :
    Tidy [] (sessionStep e p buffer) := by
  have go {x : FwState} : Tidy [] (setState x) := tidy_tune fun _ => rfl
  apply tidy_getCxt
  intro c
  cases c.fwUpgradeState with
  | notStart | connect | disconnectServer => exact Tidy.triple (.bind go fun _ => .pure _) _
  | getTrialInfo => exact Tidy.triple (.bind (getTrialInfo_tidy e) fun _ => .pure _) _
  | eraseFwd =>
    exact Tidy.triple (.bind (.orFail (eraseFwd_tidy ..) _) fun _ => .bind go fun _ => .pure _) _
  | eraseSecondFs => exact Tidy.triple (.bind (eraseSecondFs_tidy e) fun _ => .pure _) _
  | prepareFs => exact Tidy.triple (.bind (prepareFs_tidy e) fun _ => .pure _) _
  | prepareConnect => exact Tidy.triple (.bind (prepareConnect_tidy e p) fun _ => .pure _) _
  | receiveData =>
    dsimp only
    refine Tidy.triple (.ite (.pure _) (.bind (tidy_tune ?_) fun _ => .pure _)) _
    exact fun _ => rfl
  | processConfigFile =>
    exact Tidy.triple (.bind (processConfigFile_tidy e _ buffer.note_uses) fun _ => .pure _) _
  | processImage =>
    exact Tidy.triple (.bind (processReceiveImage_tidy ..) fun _ => .bind getCxt_tidy fun _ =>
      .bind (.when go) fun _ => .pure _) _
  | duplicateImages =>
    exact .andThen (processDuplicateImages_kept e) (fun _ _ _ h => h) fun _ =>
      Tidy.kept (.bind go fun _ => .pure _)
  | duplicateFs =>
    exact Tidy.triple (.bind (.when (processDuplicateFs_tidy e)) fun _ => .bind go fun _ =>
      .pure _) _
  | finish => exact Tidy.triple (.bind (sessionFinalize_tidy e) fun _ => .pure _) _

theorem sessionLoop_tidy (e : Env) (p : Packet) (fuel : Nat) (buffer : Buffer) :
    Tidy [] (sessionLoop e p fuel buffer) := by
  induction fuel generalizing buffer with
  | zero => exact .pure _
  | succ fuel ih =>
    exact .bind getCxt_tidy fun _ => .ite (.bind (sessionStep_tidy ..) fun
      | some buffer => ih buffer
      | none => .pure _) (.pure _)

theorem sessionProcess_tidy (e : Env) (fuel : Nat) (p : Packet) :
    Tidy [] (sessionProcess e fuel p) :=
  .bind (.when (.orFail (sessionInit_tidy e) _)) fun _ => .bind getCxt_tidy fun _ =>
    .bind (tidy_tune fun _ => rfl) fun _ => sessionLoop_tidy ..

/-! ## A whole life -/

theorem stateWrite_tidy (e : Env) (garbage : Nat) (fits : Bool) (r : StateWriteRequest) :
    Tidy [] (stateWrite e garbage fits r) :=
  .ite (.pure _) <| .ite (.bind (.attempt (sessionDone_tidy ..)) fun
    | .error _ => .pure _
    | .ok _ => .bind (tidy_emit rfl) fun _ => .pure _) (.pure _)

theorem erase_tidy (e : Env) (fits : Bool) (r : EraseRequest) : Tidy [] (erase e fits r) :=
  .bind .read fun _ => .ite (.pure _) <| .bind (.attempt (init_tidy e)) fun
    | .error _ => .pure _
    | .ok _ => .bind (.attempt (eraseFwd_tidy ..)) fun
      | .error _ => .pure _
      | .ok _ => .pure _

/-- The calls of the module since it was started in `s₀`, in any order and whatever they
returned, with everything that has happened. -/
inductive Life (e : Env) (s₀ : St) : St → List Event → Prop
  | boot : Life e s₀ s₀ []
  | upload {s : St} {l : List Event} (life : Life e s₀ s l) (fuel : Nat) (p : Packet) :
    Life e s₀ (sessionProcess e fuel p s).state (l ++ (sessionProcess e fuel p s).trace)
  | done {s : St} {l : List Event} (life : Life e s₀ s l) (garbage : Nat) (result : Bool) :
    Life e s₀ (sessionDone e garbage result s).state (l ++ (sessionDone e garbage result s).trace)
  | stateWrite {s : St} {l : List Event} (life : Life e s₀ s l) (garbage : Nat) (fits : Bool)
      (r : StateWriteRequest) :
    Life e s₀ (stateWrite e garbage fits r s).state (l ++ (stateWrite e garbage fits r s).trace)
  | erase {s : St} {l : List Event} (life : Life e s₀ s l) (fits : Bool) (r : EraseRequest) :
    Life e s₀ (erase e fits r s).state (l ++ (erase e fits r s).trace)

/-- Nothing is allocated yet. -/
structure Unallocated (s : St) : Prop where
  cxt : s.cxt = none
  imageHdr : s.imageHdr = none
  memParams : s.memParams = false

theorem Life.tallied {s₀ : St} (cold : Unallocated s₀) (life : Life e s₀ s l) :
    Tallied s.owns l := by
  have holds (s : St) : s.holds [] = s.owns := by
    funext b
    simp [St.holds]
  rw [← holds]
  induction life with
  | boot =>
    refine ⟨Owners.none, rfl, ?_, fun _ _ => Nat.zero_le _⟩
    funext b
    cases b <;> simp [Owners.none, St.holds, St.owns, cold.cxt, cold.imageHdr, cold.memParams]
  | upload life fuel p ih => exact (sessionProcess_tidy e fuel p).run _ _ ih
  | done life garbage result ih => exact (sessionDone_tidy e garbage result).run _ _ ih
  | stateWrite life garbage fits r ih => exact (stateWrite_tidy e garbage fits r).run _ _ ih
  | erase life fits r ih => exact (erase_tidy e fits r).run _ _ ih

/-- Only `config_buf` is ever cleared, when a session starts. -/
theorem forget_uses (l : List Event) (config : b ≠ .config) :
    (l.flatMap Event.uses).count (.forget b) = 0 := by
  rw [List.count_eq_zero, List.mem_flatMap]
  rintro ⟨w, -, mem⟩
  cases w with
  | note n => cases n <;> simp [Event.uses] at mem
  | start => simp [Event.uses, config] at mem
  | op | selected | hashed | images | created | reset => cases mem

/-- After any calls, no pointer has been freed that held nothing, and the blocks that are
allocated are those that are reachable and those that were lost: header arrays that were
replaced, and at most one `config_buf` for each start of a session. -/
theorem memory_accounted {s₀ : St} (cold : Unallocated s₀) (life : Life e s₀ s l) :
    ∃ o, Owners.none.run (l.flatMap Event.uses) = some o ∧ o.owned = s.owns ∧
      (∀ b, b ≠ .config → b ≠ .imageHdr → o.lost b = 0) ∧
      o.lost .config ≤ (l.flatMap Event.uses).count (.forget .config) ∧
      ∀ b, (l.flatMap Event.uses).count (.alloc b) =
        (l.flatMap Event.uses).count (.free b) + (s.owns b).toNat + o.lost b := by
  obtain ⟨o, run, owned, kept⟩ := life.tallied cold
  refine ⟨o, run, owned, fun b config header => ?_, kept _ (by simp), fun b => ?_⟩
  · have none := kept b header
    rwa [forget_uses l config, Nat.le_zero] at none
  · have balance := Owners.run_balance run b
    rw [← owned]
    simp only [Owners.none, Bool.toNat_false] at balance
    omega

/-- An upload that is broken off in its header. -/
def brokenOff : St := (sessionProcess plainEnv 40 (.of 0 (plainUpload.take 100)) plainDevice).state

/-- It is broken off and sent again from its start. -/
def sentAgain : List Event :=
  [] ++ (sessionProcess plainEnv 40 (.of 0 (plainUpload.take 100)) plainDevice).trace ++
    (sessionProcess plainEnv 40 (.of 0 plainUpload) brokenOff).trace

theorem sentAgain_accounted : ∃ o, Owners.none.run (sentAgain.flatMap Event.uses) = some o ∧
    o.owned = (sessionProcess plainEnv 40 (.of 0 plainUpload) brokenOff).state.owns ∧
    (∀ b, b ≠ .config → b ≠ .imageHdr → o.lost b = 0) ∧
    o.lost .config ≤ (sentAgain.flatMap Event.uses).count (.forget .config) ∧
    ∀ b, (sentAgain.flatMap Event.uses).count (.alloc b) =
      (sentAgain.flatMap Event.uses).count (.free b) +
        ((sessionProcess plainEnv 40 (.of 0 plainUpload) brokenOff).state.owns b).toNat +
          o.lost b :=
  memory_accounted ⟨rfl, rfl, rfl⟩
    ((Life.boot.upload 40 (.of 0 (plainUpload.take 100))).upload 40 (.of 0 plainUpload))

example : (Owners.none.run (sentAgain.flatMap Event.uses)).map (·.lost .config) = some 1 := by
  decide +kernel

end Qapp.Fw
