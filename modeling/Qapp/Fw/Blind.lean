import Qapp.Fw.Steady

/-!
# Code that does not look at the packet

Only `process_config_file` and `process_receive_image` read the packet, and only
RECEIVE_DATA takes its length. Everything else stays within the scope `unread`.
-/

namespace Qapp.Fw
open Traced

/-- Neither the packet nor the header array is read, the packet's length in the context stays,
and a state that reads it is not entered. -/
def unread : Scope Nat where
  event := Event.hidden
  keeps _ c := c.bufLen
  enters x := !x.consumes
  ends := true

variable {α : Type}

abbrev Blind (m : M α) : Prop := Within unread.frame m

theorem Blind.of_closing {m : M α} (h : Closing m) : Blind m := by
  apply Scope.widen (S := closing) _ _ _ (by rintro ⟨⟩) h
  · intro w plain
    exact (Bool.and_eq_true_iff.mp plain).1
  · intro s t c d same
    have len : d.progress.bufLen = c.progress.bufLen := congrArg Cxt.bufLen same
    exact len
  · intro x passive
    exact (Bool.and_eq_true_iff.mp passive).1

theorem Blind.of {m : M α} (h : Steady m) : Blind m := of_closing (Closing.of h)

theorem blind_update {f : St → St} (kept : ∀ s, (f s).cxt = s.cxt) :
    Blind (Act.update f : M Unit) := Scope.update kept fun _ _ => rfl

theorem blind_emit {w : Event} (silent : w.hidden = true) : Blind (Act.emit w : M Unit) :=
  Scope.emit silent

/-- An update of the context that leaves the length and enters no reading state. -/
theorem blind_updateCxt {f : Cxt → Cxt} (len : ∀ c, (f c).bufLen = c.bufLen)
    (state : ∀ c, (f c).fwUpgradeState = c.fwUpgradeState ∨
      (!(f c).fwUpgradeState.consumes) = true) : Blind (updateCxt f) :=
  Scope.updateCxt (fun _ => len) state

theorem blind_tune {f : Cxt → Cxt} (len : ∀ c, (f c).bufLen = c.bufLen)
    (state : ∀ c, (f c).fwUpgradeState = c.fwUpgradeState) : Blind (updateCxt f) :=
  blind_updateCxt len fun c => .inl (state c)

theorem setState_blind {state : FwState} (idle : (!state.consumes) = true) :
    Blind (setState state) :=
  blind_updateCxt (fun _ => rfl) fun _ => .inr idle

theorem getCxt_blind : Blind getCxt := Scope.getCxt

theorem writePartition_blind (e : Env) (image hdl : Option Nat) (offset : Nat)
    (bytes : List UInt8) (addr : Nat) : Blind (writePartition e image hdl offset bytes addr) :=
  writePartition_within Blind.of e (fun _ _ _ => blind_emit rfl) fun _ _ _ => blind_emit rfl

theorem digestStarts_blind : Blind digestStarts := blind_tune (fun _ => rfl) fun _ => rfl

theorem digestUpdate_blind (bytes : List UInt8) : Blind (digestUpdate bytes) :=
  blind_tune (fun _ => rfl) fun _ => rfl

theorem digestFinish_blind (e : Env) : Blind (digestFinish e) :=
  .bind getCxt_blind fun _ => .bind (blind_tune (fun _ => rfl) fun _ => rfl) fun _ => .pure _

theorem setDownloadFlag_blind (i : Nat) (flag : Bool) : Blind (setDownloadFlag i flag) :=
  blind_tune (fun _ => rfl) fun _ => rfl

theorem hashBlocks_blind (e : Env) (hdl n offset : Nat) : Blind (hashBlocks e hdl n offset) := by
  induction n generalizing offset with
  | zero => exact .pure _
  | succ n ih =>
    exact .bind (Blind.of (readPartition_steady ..)) fun ⟨_, _⟩ =>
      .bind (.when (digestUpdate_blind _)) fun _ => ih _

theorem checkActive_blind (e : Env) (activeFwd i : Nat) (h : ImageHdr) :
    Blind (checkActive e activeFwd i h) :=
  .bind (.attempt (Blind.of (findPartition_steady ..))) fun
    | .error _ => .pure _
    | .ok _ => .bind digestStarts_blind fun _ => .bind .read fun _ =>
      .bind (hashBlocks_blind ..) fun _ => .bind (Blind.of (releaseHandle_steady _)) fun _ =>
        .bind (digestFinish_blind e) fun _ => .when (setDownloadFlag_blind ..)

theorem checkDownload_blind (e : Env) (activeFwd i : Nat) (hs : List ImageHdr) :
    Blind (checkDownload e activeFwd i hs) := by
  induction hs generalizing i with
  | nil => exact .pure _
  | cons h hs ih =>
    exact .bind (setDownloadFlag_blind ..) fun _ => .bind (.when (checkActive_blind ..)) fun _ => ih _

theorem dropConfigBuf_blind : Blind dropConfigBuf :=
  .bind .read fun _ => .ite (.bind (Blind.of (free_steady _)) fun _ =>
    blind_tune (fun _ => rfl) fun _ => rfl) (.pure _)

theorem padHash_blind (img : ImageHdr) : Blind (padHash img) :=
  .bind getCxt_blind fun _ => .ite (.bind (Blind.of (malloc_steady _)) fun _ =>
    .ite (.bind (digestUpdate_blind _) fun _ => Blind.of (free_steady _)) (.fail _)) (.pure _)

theorem verifyImageHash_blind (e : Env) (img : ImageHdr) : Blind (verifyImageHash e img) :=
  .bind getCxt_blind fun _ => .bind (padHash_blind _) fun _ => .bind getCxt_blind fun _ =>
    .bind (digestFinish_blind e) fun _ => .bind (blind_emit rfl) fun _ => .ite (.pure _) (.fail _)

theorem startImage_blind (e : Env) (img : ImageHdr) : Blind (startImage e img) :=
  .bind (blind_tune (fun _ => rfl) fun _ => rfl) fun _ => .ite (Blind.of (createFs1_steady ..)) <|
    .bind getCxt_blind fun _ => .bind (.orFail (Blind.of (newPartition_steady ..)) _) fun _ =>
      .bind getCxt_blind fun _ => .orFail (Blind.of (erasePartition_steady ..)) _

theorem nextImage_blind (img : ImageHdr) : Blind (nextImage img) :=
  .bind (Blind.of releasePartition_steady) fun _ => blind_tune (fun _ => rfl) fun _ => rfl

theorem finishImage_blind (e : Env) (img : ImageHdr) : Blind (finishImage e img) :=
  .bind (.cleanUp (verifyImageHash_blind ..) (Blind.of releasePartition_steady)) fun _ =>
    .bind (nextImage_blind _) fun _ => .bind getCxt_blind fun _ =>
      .ite (.bind (setState_blind rfl) fun _ => .pure _) <|
        .ite (.bind (setState_blind rfl) fun _ => .pure _) (.pure _)

theorem finishIfComplete_blind (e : Env) (img : ImageHdr) : Blind (finishIfComplete e img) :=
  .bind getCxt_blind fun _ => .ite (finishImage_blind ..) (.pure _)

theorem copyImage_blind (e : Env) (index hdl n offset : Nat) :
    Blind (copyImage e index hdl n offset) := by
  induction n generalizing offset with
  | zero => exact .pure _
  | succ n ih =>
    exact .bind (Blind.of (readPartition_steady ..)) fun ⟨_, _⟩ => .bind getCxt_blind fun _ =>
      .bind (.orFail (Blind.of (erasePartition_steady ..)) _) fun _ =>
        .bind (.orFail (writePartition_blind ..) _) fun _ => ih _

theorem duplicateImages_blind (e : Env) (active : Nat) (imgs : List ImageHdr)
    (ret : Option Status) : Blind (duplicateImages e active imgs ret) := by
  induction imgs generalizing ret with
  | nil => exact .pure _
  | cons img imgs ih =>
    exact .bind getCxt_blind fun _ => .ite (.bind (.attempt (Blind.of (findPartition_steady ..))) fun
      | .error _ => .pure _
      | .ok _ => .bind (.attempt (Blind.of (newPartition_steady ..))) fun
        | .error _ => .bind (Blind.of (releaseHandle_steady _)) fun _ => .pure _
        | .ok _ => .bind (.attempt (copyImage_blind ..)) fun _ =>
          .bind (Blind.of (releaseHandle_steady _)) fun _ => .bind (Blind.of releasePartition_steady) fun _ =>
            .bind (blind_tune (fun _ => rfl) fun _ => rfl) fun _ => ih _)
      (.bind (blind_tune (fun _ => rfl) fun _ => rfl) fun _ => ih _)

theorem processDuplicateImages_blind (e : Env) : Blind (processDuplicateImages e) :=
  .bind .read fun _ => .bind (Blind.of (malloc_steady _)) fun _ =>
    .ite (.bind (Blind.of releasePartition_steady) fun _ => .fail _) <|
      .bind (blind_tune (fun _ => rfl) fun _ => rfl) fun _ =>
        .bind (duplicateImages_blind ..) fun ret => .bind (Blind.of releasePartition_steady) fun _ =>
          .bind (Blind.of (free_steady _)) fun _ => by
            cases ret with
            | none => exact .pure _
            | some err => exact .fail _

end Qapp.Fw
