import Qapp.Lib.Owners
import Qapp.Fw.Blind
import Qapp.Fw.Device

/-!
# Allocated memory

Every block the module allocates has one pointer that owns it: a global one, one in the
context, or a local one. Only the two pointers to the header are ever set while they own a
block.
-/

namespace Qapp.Fw
open ByteMem Traced

/-- What an event does to the owner of a block. A session that starts again forgets
`config_buf`. -/
def Event.uses : Event → List (Owners.Use Block)
  | .note (.alloc b) => [.alloc b]
  | .note (.denied b) => [.denied b]
  | .note (.free b) => [.free b]
  | .start => [.forget .config]
  | _ => []

/-- The blocks that are reachable between two calls. -/
def St.owns (s : St) : Block → Bool
  | .memParams => s.memParams
  | .context | .tmpBuffer | .digest => s.cxt.isSome
  | .config => (s.cxt.bind Cxt.configBuf).isSome
  | .imageHdr => s.imageHdr.isSome
  | .hashBuf | .blockBuf | .aligned => false

/-- After `l` the pointers in `f` own a block. Apart from header arrays, only blocks whose
pointers were cleared have been lost. -/
def Tallied (f : Block → Bool) (l : List Event) : Prop :=
  ∃ o, Owners.none.run (l.flatMap Event.uses) = some o ∧ o.owned = f ∧
    ∀ b, b ≠ .imageHdr → o.lost b ≤ (l.flatMap Event.uses).count (.forget b)

variable {α : Type} {e : Env} {s t : St} {f g : Block → Bool} {h l : List Event} {b : Block}
  {loc : List Block}

namespace Tallied

theorem next {w : Event} {u : Owners.Use Block} (tallied : Tallied f h) (uses : w.uses = [u])
    (step : ∀ o : Owners Block, o.owned = f → ∃ o', o.step u = some o' ∧ o'.owned = g ∧
      ∀ b, b ≠ .imageHdr → o'.lost b ≤ o.lost b + [u].count (.forget b)) :
    Tallied g (h ++ [w]) := by
  obtain ⟨o, run, owned, kept⟩ := tallied
  obtain ⟨o', next, owned', more⟩ := step o owned
  refine ⟨o', ?_, owned', fun b header => ?_⟩
  · simp [uses, Owners.run_snoc, run, next]
  · have before := kept b header
    have after := more b header
    simp only [List.flatMap_append, List.flatMap_cons, List.flatMap_nil, uses, List.append_nil,
      List.count_append]
    omega

theorem set {w : Event} {u : Owners.Use Block} {held : Bool} (tallied : Tallied f h)
    (uses : w.uses = [u]) (step : ∀ o : Owners Block, o.step u = some (o.set b held))
    (idle : u = .forget b ∨ b = .imageHdr ∨ f b = false) :
    Tallied (Function.update f b held) (h ++ [w]) := by
  apply tallied.next uses
  rintro o rfl
  refine ⟨_, step o, rfl, fun c header => ?_⟩
  by_cases eq : c = b
  · subst eq
    obtain rfl | same | idle := idle
    · cases owned : o.owned c <;> simp [Owners.set, owned]
    · exact absurd same header
    · rw [Owners.set_lost held idle]
      omega
  · simp [Owners.set, eq]

theorem alloc (tallied : Tallied f h) (idle : b = .imageHdr ∨ f b = false) :
    Tallied (Function.update f b true) (h ++ [.note (.alloc b)]) :=
  tallied.set rfl (fun _ => rfl) (.inr idle)

theorem denied (tallied : Tallied f h) (idle : b = .imageHdr ∨ f b = false) :
    Tallied (Function.update f b false) (h ++ [.note (.denied b)]) :=
  tallied.set rfl (fun _ => rfl) (.inr idle)

theorem start (tallied : Tallied f h) :
    Tallied (Function.update f .config false) (h ++ [.start]) :=
  tallied.set (b := .config) rfl (fun _ => rfl) (.inl rfl)

theorem free (tallied : Tallied f h) (held : f b = true) :
    Tallied (Function.update f b false) (h ++ [.note (.free b)]) := by
  apply tallied.next (u := .free b) rfl
  rintro o rfl
  exact ⟨_, if_pos held, rfl, fun _ _ => Nat.le_add_right ..⟩

theorem silent (tallied : Tallied f h) (none : ∀ w ∈ l, w.uses = []) : Tallied f (h ++ l) := by
  have same : (h ++ l).flatMap Event.uses = h.flatMap Event.uses := by
    rw [List.flatMap_append, List.flatMap_eq_nil_iff.mpr none, List.append_nil]
  unfold Tallied
  rwa [same]

/-- Several blocks are freed. -/
theorem frees {bs : List Block} (tallied : Tallied f h)
    (uses : l.flatMap Event.uses = bs.map .free) (nodup : bs.Nodup) (held : ∀ b ∈ bs, f b = true) :
    Tallied (fun b => f b && !decide (b ∈ bs)) (h ++ l) := by
  obtain ⟨o, run, rfl, kept⟩ := tallied
  refine ⟨{ o with owned := fun b => o.owned b && !decide (b ∈ bs) }, ?_, rfl, fun b header => ?_⟩
  · rw [List.flatMap_append, Owners.run_append, run, uses]
    exact Owners.run_frees nodup held
  · rw [List.flatMap_append, List.count_append]
    exact Nat.le_add_right_of_le (kept b header)

end Tallied

/-! ## Code that frees what it allocates -/

/-- The blocks owned by the state or by a local pointer. -/
def St.holds (s : St) (loc : List Block) (b : Block) : Bool := s.owns b || decide (b ∈ loc)

/-- As far as the pointers are concerned, the state is what the code makes of it, while the
local pointers `loc` own a block. -/
def tallying (loc : List Block) : Frame St Event where
  rel s l t := ∀ h, Tallied (s.holds loc) h → Tallied (t.holds loc) (h ++ l)
  refl s := by simp
  trans := by
    intro s t u l k first second h tallied
    rw [← List.append_assoc]
    exact second _ (first _ tallied)

abbrev Tidy (loc : List Block) (m : M α) : Prop := Within (tallying loc) m

theorem holds_cons (new : s.owns b = false) (fresh : b ∉ loc) :
    Function.update (s.holds (b :: loc)) b false = s.holds loc := by
  funext x
  by_cases eq : x = b
  · subst eq
    simp [St.holds, new, fresh]
  · simp [St.holds, eq]

theorem update_holds : Function.update (s.holds loc) b true = s.holds (b :: loc) := by
  funext x
  by_cases eq : x = b
  · subst eq
    simp [St.holds]
  · simp [St.holds, eq]

theorem holds_same (same : t.owns = s.owns) : t.holds loc = s.holds loc := by
  funext x
  simp [St.holds, same]

theorem Tidy.kept {m : M α} (tidy : Tidy loc m) :
    Triple (fun s l => Tallied (s.holds loc) l) m fun _ s l => Tallied (s.holds loc) l :=
  Triple.of tidy.run

theorem tidy_update {f : St → St} (same : ∀ s, (f s).owns = s.owns) :
    Tidy loc (Act.update f : M Unit) := by
  apply Within.update
  intro s h tallied
  rwa [List.append_nil, holds_same (same s)]

theorem tidy_emit {w : Event} (uses : w.uses = []) : Tidy loc (Act.emit w : M Unit) := by
  apply Within.emit
  intro s h tallied
  exact tallied.silent (by simp [uses])

theorem tidy_updateCxt {f : Cxt → Cxt} (same : ∀ c, (f c).configBuf.isSome = c.configBuf.isSome) :
    Tidy loc (updateCxt f) := by
  apply tidy_update
  intro s
  funext b
  cases b <;> simp [St.owns]
  cases s.cxt with
  | none => rfl
  | some c => exact same c

theorem tidy_tune {f : Cxt → Cxt} (same : ∀ c, (f c).configBuf = c.configBuf) :
    Tidy loc (updateCxt f) :=
  tidy_updateCxt fun c => by rw [same]

theorem getCxt_tidy : Tidy loc getCxt :=
  .bind .read fun s => by
    cases s.cxt with
    | none => exact .fail _
    | some c => exact .pure _

theorem free_triple (new : ∀ s : St, s.owns b = false) (fresh : b ∉ loc) :
    Triple (fun s l => Tallied (s.holds (b :: loc)) l) (free b)
      fun _ s l => Tallied (s.holds loc) l := by
  apply Triple.of
  intro s l tallied
  have freed := tallied.free (b := b) (by simp [St.holds])
  rwa [holds_cons (new s) fresh] at freed

theorem Tidy.triple {m : M α} (tidy : Tidy loc m) (P : St → Prop) :
    Triple (fun s l => Tallied (s.holds loc) l ∧ P s) m fun _ s l => Tallied (s.holds loc) l :=
  Triple.of fun s l before => tidy.run s l before.1

/-- What is allocated belongs to a local pointer at first. -/
theorem malloc_triple {P : St → Prop} {f : Bool → M α}
    {Q : Except Status α → St → List Event → Prop}
    (idle : ∀ s, P s → b = .imageHdr ∨ s.holds loc b = false)
    (oom : ∀ s, P s → P { s with oom := s.oom.tail })
    (yes : Triple (fun s l => Tallied (s.holds (b :: loc)) l ∧ P s) (f true) Q)
    (no : Triple (fun s l => Tallied (Function.update (s.holds loc) b false) l ∧ P s) (f false) Q) :
    Triple (fun s l => Tallied (s.holds loc) l ∧ P s) (malloc b >>= f) Q := by
  apply Triple.of
  rintro s h ⟨tallied, met⟩
  rw [Act.bind_run]
  rcases malloc_cases b s with run | ⟨run, -⟩
  · have held := tallied.alloc (idle s met)
    rw [update_holds] at held
    rw [run, Act.andThen_ok, ← List.append_assoc]
    exact (yes { s with oom := s.oom.tail } _ ⟨held, oom s met⟩).2
  · rw [run, Act.andThen_ok, ← List.append_assoc]
    exact (no { s with oom := s.oom.tail } _ ⟨tallied.denied (idle s met), oom s met⟩).2

/-- The state takes over what a local pointer owns. -/
theorem update_takes {P : St → Prop} {k : St → St}
    (takes : ∀ s, P s → (k s).holds loc = s.holds (b :: loc)) :
    Triple (fun s l => Tallied (s.holds (b :: loc)) l ∧ P s) (Act.update k : M Unit)
      fun _ s l => Tallied (s.holds loc) l := by
  apply Triple.of
  rintro s l ⟨tallied, met⟩
  rw [Act.update_run, List.append_nil, takes s met]
  exact tallied

/-- A local block is allocated for a while. -/
theorem malloc_tidy (new : ∀ s : St, s.owns b = false) (fresh : b ∉ loc) {f : Bool → M α}
    (yes : Triple (fun s l => Tallied (s.holds (b :: loc)) l) (f true)
      fun _ s l => Tallied (s.holds loc) l) (no : Tidy loc (f false)) :
    Tidy loc (malloc b >>= f) := by
  have idle (s : St) : s.holds loc b = false := by simp [St.holds, new, fresh]
  constructor
  intro s h tallied
  apply (malloc_triple (P := fun _ => True) (Q := fun _ s l => Tallied (s.holds loc) l)
    (fun s _ => .inr (idle s)) (fun _ _ => trivial) (yes.pre fun _ _ h => h.1) ?_ s h
    ⟨tallied, trivial⟩).2
  refine (no.triple fun _ => True).pre fun s l denied => ?_
  rwa [← idle s, Function.update_eq_self] at denied

/-! ## The devices and the partitions -/

theorem flashRead_tidy (e : Env) (addr size : Nat) : Tidy loc (flashRead e addr size) :=
  .bind .read fun s => .ite (.pure _) <| .bind (tidy_update fun _ => rfl) fun _ => by
    cases s.readFault <;> exact .pure _

theorem rramRead_tidy : Tidy loc rramRead :=
  .bind .read fun s => .bind (tidy_update fun _ => rfl) fun _ => by
    cases s.readFault <;> exact .pure _

theorem flashWrite_tidy (e : Env) (who : Issuer) (addr : Nat) (bytes : List UInt8) :
    Tidy loc (flashWrite e who addr bytes) :=
  .bind .read fun s => .ite (.bind (tidy_emit rfl) fun _ => .fail _) <|
    .bind (tidy_update fun _ => rfl) fun _ => by
      cases s.opFault with
      | none => exact .bind (tidy_update fun _ => rfl) fun _ => tidy_emit rfl
      | some left =>
        exact .bind (tidy_update fun _ => rfl) fun _ => .bind (tidy_emit rfl) fun _ => .fail _

theorem flashErase_tidy (e : Env) (who : Issuer) (startBlock numBlocks : Nat) :
    Tidy loc (flashErase e who startBlock numBlocks) :=
  .bind .read fun s => .ite (.bind (tidy_emit rfl) fun _ => .fail _) <|
    .bind (tidy_update fun _ => rfl) fun _ => by
      cases s.opFault with
      | none => exact .bind (tidy_update fun _ => rfl) fun _ => tidy_emit rfl
      | some left =>
        exact .bind (tidy_update fun _ => rfl) fun _ => .bind (tidy_emit rfl) fun _ => .fail _

theorem rramWrite_tidy (who : Issuer) (addr : Nat) (bytes : List UInt8) :
    Tidy loc (rramWrite who addr bytes) :=
  .bind .read fun s => .bind (tidy_update fun _ => rfl) fun _ => by
    cases s.opFault with
    | none => exact .bind (tidy_update fun _ => rfl) fun _ => tidy_emit rfl
    | some left =>
      exact .bind (tidy_update fun _ => rfl) fun _ => .bind (tidy_emit rfl) fun _ => .fail _

theorem validation_tidy : Tidy loc validation :=
  .bind .read fun _ => .ite (.pure _) (.fail _)

theorem eraseFwd_tidy (e : Env) (fwdIdx : Nat) : Tidy loc (eraseFwd e fwdIdx) :=
  .bind validation_tidy fun _ => .ite (.fail _) (flashErase_tidy ..)

theorem setFwdInfo_tidy (e : Env) (fwdIdx : Nat) (info : FwdInfo) (value : Nat) :
    Tidy loc (setFwdInfo e fwdIdx info value) :=
  .bind validation_tidy fun _ => .ite (.fail _) (flashWrite_tidy ..)

theorem getFwdInfo_tidy (e : Env) (fwdIdx : Nat) (info : FwdInfo) (old : Nat) :
    Tidy loc (getFwdInfo e fwdIdx info old) :=
  .bind .read fun _ => .ite (.bind (flashRead_tidy ..) fun ⟨_, _⟩ => .pure _) (.pure _)

theorem getPartitionBaseOnGolden_tidy (e : Env) : Tidy loc (getPartitionBaseOnGolden e) :=
  .bind .read fun s => .ite (by
    cases findFde s.rram fun i =>
        fdeId s.rram i == fdeIdApp && fdeRank s.rram i == fdeRankGolden with
    | some _ => exact .pure _
    | none =>
      exact .bind (flashRead_tidy ..) fun ⟨_, _⟩ => .ite (.ite (.pure _) (.pure _)) (.pure _))
    (.pure _)

/-- The memory parameters are kept for good. -/
theorem allocMemParams_tidy : Tidy [] allocMemParams := by
  constructor
  intro s h tallied
  unfold allocMemParams
  rw [Act.bind_ok (Act.read_run s), Act.ite_run]
  split
  · simpa using tallied
  · rename_i missing
    have idle (s : St) (missing : s.memParams = false) : s.holds [] .memParams = false := by
      simpa [St.holds, St.owns] using missing
    apply (malloc_triple (P := fun s => s.memParams = false)
      (Q := fun _ s l => Tallied (s.holds []) l) (fun s none => .inr (idle s none))
      (fun _ none => none) ?_ ?_ s h ⟨tallied, by simpa using missing⟩).2
    · apply update_takes
      intro s _
      funext b
      cases b <;> simp [St.holds, St.owns]
    · apply Sound.fail
      rintro s l ⟨denied, none⟩
      rwa [← idle s none, Function.update_eq_self] at denied

theorem init_tidy (e : Env) : Tidy [] (init e) :=
  .bind .read fun _ => .ite (.pure _) <| .ite (.fail _) <| .bind allocMemParams_tidy fun _ =>
    .bind (tidy_update fun _ => rfl) fun _ => .bind (getPartitionBaseOnGolden_tidy e) fun _ =>
      .bind (tidy_update fun _ => rfl) fun _ => .ite (.fail _) (tidy_update fun _ => rfl)

theorem scanLoop_tidy (e : Env) (is : List Nat) (a : Scan) : Tidy loc (scanLoop e is a) := by
  induction is generalizing a with
  | nil => exact .pure _
  | cons i is ih =>
    exact .bind (getFwdInfo_tidy ..) fun ⟨_, _⟩ => .ite (.pure _) <|
      .bind (getFwdInfo_tidy ..) fun ⟨_, _⟩ => .ite (.pure _) <|
      .bind (getFwdInfo_tidy ..) fun ⟨_, _⟩ => .ite (.pure _) <|
      .bind (getFwdInfo_tidy ..) fun ⟨_, _⟩ => .ite (.pure _) (ih _)

theorem getTrialActiveFwdIndex_tidy (e : Env) : Tidy [] (getTrialActiveFwdIndex e) :=
  .bind (.attempt (init_tidy e)) fun
    | .error _ => .pure _
    | .ok _ => .bind .read fun _ => .ite (.pure _) <|
      .ite (.bind (scanLoop_tidy ..) fun ⟨_, _⟩ => .pure _) <|
      .bind (getFwdInfo_tidy ..) fun ⟨_, _⟩ => .ite (.pure _) <|
      .bind (scanLoop_tidy ..) fun ⟨_, _⟩ => .pure _

theorem setHandle_tidy (k : Nat) (c : Client) : Tidy loc (Act.update (setHandle k c) : M Unit) :=
  tidy_update fun _ => rfl

theorem releaseHandle_tidy (k : Nat) : Tidy loc (Act.update (releaseHandle k) : M Unit) :=
  tidy_update fun _ => rfl

theorem findPartition_tidy (e : Env) (fwdIdx id : Nat) : Tidy loc (findPartition e fwdIdx id) :=
  .bind validation_tidy fun _ => .ite (.fail _) <| .bind .read fun s => by
    cases freeHandle s with
    | none => exact .fail _
    | some k =>
      refine .bind (flashRead_tidy ..) fun ⟨_, m⟩ => .ite (.fail _) ?_
      cases entryOf m fwdIdx id with
      | none => exact .fail _
      | some i => exact .bind (setHandle_tidy ..) fun _ => .pure _

theorem firstPartition_tidy (e : Env) (fwdIdx : Nat) : Tidy loc (firstPartition e fwdIdx) :=
  .bind validation_tidy fun _ => .ite (.fail _) <| .bind .read fun s => by
    cases freeHandle s with
    | none => exact .fail _
    | some k =>
      exact .bind (flashRead_tidy ..) fun ⟨_, _⟩ => .ite (.fail _) <| .ite (.fail _) <|
        .bind (setHandle_tidy ..) fun _ => .pure _

theorem nextPartition_tidy (e : Env) (curr : Nat) : Tidy loc (nextPartition e curr) :=
  .bind validation_tidy fun _ => .bind .read fun s => .ite (.fail _) <| by
    cases freeHandle s with
    | none => exact .fail _
    | some k =>
      exact .bind (flashRead_tidy ..) fun ⟨_, _⟩ => .ite (.fail _) <| .ite (.fail _) <|
        .ite (.fail _) <| .bind (setHandle_tidy ..) fun _ => .pure _

theorem createPartition_tidy (e : Env) (fwdIdx id version start size : Nat) :
    Tidy loc (createPartition e fwdIdx id version start size) :=
  .bind validation_tidy fun _ => .ite (.fail _) <| .ite (.fail _) <| .bind .read fun s => by
    cases freeHandle s with
    | none => exact .fail _
    | some k =>
      refine .bind (flashRead_tidy ..) fun ⟨_, m⟩ => .ite (.fail _) ?_
      cases entryOf m fwdIdx imageUnused with
      | none => exact .fail _
      | some i =>
        exact .bind (flashWrite_tidy ..) fun _ => .bind (setHandle_tidy ..) fun _ => .pure _

theorem erasePartition_tidy (e : Env) (image hdl : Option Nat) (offset nbytes : Nat) :
    Tidy loc (erasePartition e image hdl offset nbytes) :=
  .bind .read fun _ => by
    cases hdl with
    | none => exact .fail _
    | some k =>
      exact .ite (.fail _) <| .ite (.pure _) <| .ite (.fail _) <| .ite (.fail _) <|
        flashErase_tidy ..

theorem readPartition_tidy (e : Env) (hdl : Option Nat) (offset maxBytes : Nat) :
    Tidy loc (readPartition e hdl offset maxBytes) :=
  .bind .read fun _ => by
    cases hdl with
    | none => exact .pure _
    | some k =>
      exact .ite (.pure _) <| .ite (.bind rramRead_tidy fun ⟨_, _⟩ => .pure _)
        (.bind (flashRead_tidy ..) fun ⟨_, _⟩ => .pure _)

/-- The aligned copy of what goes to RRAM is freed on either way out. -/
theorem writePartition_tidy (fresh : Block.aligned ∉ loc) (e : Env) (image hdl : Option Nat)
    (offset : Nat) (bytes : List UInt8) (addr : Nat) :
    Tidy loc (writePartition e image hdl offset bytes addr) := by
  have local_ : ∀ s : St, s.owns .aligned = false := fun _ => rfl
  refine .bind .read fun s => ?_
  cases hdl with
  | none => exact .fail _
  | some k =>
    refine .ite (.fail _) (.ite (.ite ?_ (rramWrite_tidy ..)) (flashWrite_tidy ..))
    apply malloc_tidy local_ fresh _ (.fail _)
    apply Sound.andThen (K := fun r s l =>
      Tallied (s.holds (if r.isOk then .aligned :: loc else loc)) l)
    · apply Sound.cleanUp (M := fun _ s l => Tallied (s.holds (.aligned :: loc)) l)
      · exact (rramWrite_tidy ..).kept.post fun r s l after => by cases r <;> exact after
      · exact fun _ => free_triple local_ fresh
    · exact fun _ _ _ freed => freed
    · exact fun _ => free_triple local_ fresh

theorem partitionEnd_tidy (e : Env) (fwdIdx id imgStart : Nat) :
    Tidy loc (partitionEnd e fwdIdx id imgStart) :=
  .bind (.attempt (findPartition_tidy ..)) fun
    | .error _ => .pure _
    | .ok _ => .bind .read fun _ => .bind (releaseHandle_tidy _) fun _ => .pure _

theorem getFirst_tidy (e : Env) : Tidy loc (getFirstProgrammingImageStartAddress e) :=
  .bind .read fun _ => .bind (partitionEnd_tidy ..) fun _ => .bind (partitionEnd_tidy ..) fun _ =>
    .bind (partitionEnd_tidy ..) fun _ => .bind (partitionEnd_tidy ..) fun _ => .pure _

theorem endAddrLoop_tidy (e : Env) (fuel hdl endAddr : Nat) :
    Tidy loc (endAddrLoop e fuel hdl endAddr) := by
  induction fuel generalizing hdl endAddr with
  | zero => exact .bind (releaseHandle_tidy _) fun _ => .pure _
  | succ fuel ih =>
    exact .bind (.attempt (nextPartition_tidy ..)) fun
      | .error _ => .bind (releaseHandle_tidy _) fun _ => .pure _
      | .ok _ => .bind (releaseHandle_tidy _) fun _ => .bind .read fun _ => ih _ _

theorem getImageSetEndAddr_tidy (e : Env) (fwdNum : Nat) : Tidy loc (getImageSetEndAddr e fwdNum) :=
  .bind (getFwdInfo_tidy ..) fun ⟨_, _⟩ => .ite (.bind (.orFail (firstPartition_tidy ..) _) fun _ =>
    .bind .read fun _ => endAddrLoop_tidy ..) (.fail _)

theorem selectTrialFwd_tidy (e : Env) : Tidy [] (selectTrialFwd e) :=
  .bind .read fun _ => .ite (.fail _) <| .bind (getFirst_tidy e) fun _ =>
    .bind (getTrialActiveFwdIndex_tidy e) fun ⟨_, _⟩ =>
      .ite (.ite (.bind (getImageSetEndAddr_tidy ..) fun _ => .ite (.pure _) (.pure _)) (.pure _))
        (.bind (getImageSetEndAddr_tidy ..) fun _ => .pure _)

theorem setSblTrialFde_tidy (sblTrialIdx version : Nat) :
    Tidy loc (setSblTrialFde sblTrialIdx version) :=
  .bind .read fun _ => .ite (.fail _) <| .ite (.fail _) (rramWrite_tidy ..)

theorem rejectSblTrialFde_tidy : Tidy loc rejectSblTrialFde :=
  .bind .read fun s => .ite (.fail _) <| by
    cases findFde s.rram fun i =>
        fdeId s.rram i == fdeIdSbl && fdeRank s.rram i == fdeRankTrial with
    | none => exact .fail _
    | some i => exact rramWrite_tidy ..

theorem acceptTrialFwd_tidy (e : Env) (garbage : Nat) : Tidy [] (acceptTrialFwd e garbage) :=
  .bind (getTrialActiveFwdIndex_tidy e) fun ⟨_, _⟩ => .ite (.bind .read fun _ =>
    .ite (.bind (setFwdInfo_tidy ..) fun _ => .ite (setFwdInfo_tidy ..) (.pure _)) (.fail _))
    (.fail _)

theorem rejectTrialFwd_tidy (e : Env) : Tidy [] (rejectTrialFwd e) :=
  .bind (getTrialActiveFwdIndex_tidy e) fun ⟨_, _⟩ => .ite (.bind (setFwdInfo_tidy ..) fun _ =>
    .bind (setFwdInfo_tidy ..) fun _ => .bind (.attempt (findPartition_tidy ..)) fun
      | .ok _ => rejectSblTrialFde_tidy
      | .error err => by cases err <;> first | exact .pure _ | exact .fail _) (.fail _)

theorem sessionDone_tidy (e : Env) (garbage : Nat) (result : Bool) :
    Tidy [] (sessionDone e garbage result) :=
  .bind (getTrialActiveFwdIndex_tidy e) fun ⟨_, _⟩ => .ite
    (.ite (.orFail (acceptTrialFwd_tidy ..) _) (.orFail (rejectTrialFwd_tidy e) _)) (.fail _)

end Qapp.Fw
