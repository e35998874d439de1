import Qapp.Fw.Feeding
import Qapp.Fw.Found

/-!
# From the stream to the table of the trial FWD

What a session has stored is its part of the stream, and what the table of the trial FWD leads
to is what has been stored.
-/

namespace Qapp.Fw
open ByteMem Traced

variable {e : Env} {S : List UInt8} {s₀ s : St} {l : List Event} {pos i : Nat} {r : ImageHdr}

/-- What the packets of an upload meet. -/
def Splits (S : List UInt8) (pos n : Nat) : Prop :=
  hdrFormat S = formatPartial → HeaderApart S pos n

/-- An image that is all there is its part of the stream. -/
theorem imagePart_whole {flags : Nat → Bool}
    (whole : imageStart S flags i + imageLen S i ≤ pos) :
    imagePart S flags pos i = (S.drop (imageStart S flags i)).take (imageLen S i) := by
  rw [imagePart_eq, Nat.min_eq_left (by omega)]

/-- An image of which all has been fed is stored and verified. -/
theorem Feed.stored (feed : Feed e S (Splits S) s pos l) {raw hdrs : List ImageHdr}
    {flags : Nat → Bool} (images : .images raw hdrs flags ∈ l) (flag : flags i = true)
    (data : 0 < imageLen S i) (whole : imageStart S flags i + imageLen S i ≤ pos) :
    stored i l = some ((S.drop (imageStart S flags i)).take (imageLen S i)) ∧
      ∃ bytes, .hashed (some i) bytes true ∈ l := by
  obtain ⟨-, rfl⟩ | ⟨-, fed⟩ := feed.fed fun _ _ met => met
  · cases images
  · rw [← imagePart_whole whole]
    exact ⟨(fed.used.stored raw hdrs flags images).2 i flag,
      fed.verified raw hdrs flags images i flag data whole⟩

/-- After an upload the table of the trial FWD leads from the id of each image that is downloaded,
and of which all is there, to its part of the stream, however the stream was cut into packets. -/
theorem uploaded_images_found (feed : Feed e S (Splits S) s pos l)
    (calls : Calls e Fresh s₀ s l) (proper : Proper e s₀ l) (separate : Separate s₀ l)
    (acked : Acknowledged l) {raw hdrs : List ImageHdr} {flags : Nat → Bool}
    (images : .images raw hdrs flags ∈ l) (listable : Listable raw) (hr : raw[i]? = some r)
    (down : downloads flags i r.imageId = true) (data : 0 < imageLen S i)
    (whole : imageStart S flags i + imageLen S i ≤ pos) :
    ∃ f rs q, directory l = some (f, rs) ∧ Lookup s.flash f r.imageId q ∧
      load s.flash q.imgStart r.imageLength =
        (S.drop (imageStart S flags i)).take (imageLen S i) := by
  obtain ⟨stored, bytes, hashed⟩ := feed.stored images (downloads_flag down).1 data whole
  obtain ⟨fill, listing, homes⟩ := calls.tracked proper separate acked images listable
  obtain ⟨f, rs, data, pad, q, dir, -, -, stored', found, same⟩ :=
    homes.found listing fill images listable hr down hashed
  obtain rfl := Option.some.inj (stored'.symm.trans stored)
  exact ⟨f, rs, q, dir, found, same⟩

def fullEnd : Traced.Out St Event Status Bool :=
  sessionProcess plainEnv 40 fullThird fullLate.state

def fullRun : List Event := fullTrace ++ fullEnd.trace

def fullImages : List ImageHdr := [plainImage appImgId blockSize 3, plainImage 77 blockSize 2]

theorem fresh_of_state {s : St} {p : Packet} {state : FwState}
    (at_ : s.cxt.map Cxt.fwUpgradeState = some state) (other : state ≠ .duplicateImages) :
    Fresh s p := by
  refine .inr fun c hc is => ?_
  rw [hc, Option.map_some, is] at at_
  exact absurd (Option.some.inj at_).symm other

/-- The images of the header, all of which are to be downloaded. -/
def Event.loadsAll (imgs : List ImageHdr) : Event → Bool
  | .images raw _ flags => raw == imgs && (List.range imgs.length).all flags
  | _ => false

/-- What the run is looked through for, in one evaluation. -/
theorem fullRun_checks : fullEnd.res.toOption = some true ∧
    fullSplit.state.cxt.map Cxt.fwUpgradeState = some .receiveData ∧
    fullLate.state.cxt.map Cxt.fwUpgradeState = some .receiveData ∧
    fullRun.all Event.selectsUpper = true ∧ fullRun.all (Event.accepts fullImages) = true ∧
    fullRun.all Event.acknowledged = true ∧ fullRun.any (Event.loadsAll fullImages) = true := by
  decide +kernel

theorem fullRun_calls : Calls plainEnv Fresh plainDevice fullEnd.state fullRun := by
  have idle : Calls plainEnv Fresh plainDevice plainDevice [] := .idle rfl
  have first := idle.restart 40 fullFirst rfl (.inl rfl)
  obtain ⟨-, receiving, still, -⟩ := fullRun_checks
  have fresh : Fresh fullSplit.state fullSecond := fresh_of_state receiving (by decide)
  have second := first.resume 40 fullSecond (by decide) fresh
  have fresh' : Fresh fullLate.state fullThird := fresh_of_state still (by decide)
  exact second.resume 40 fullThird (by decide) fresh'

theorem fullRun_feed : Feed plainEnv fullUpload (Splits fullUpload) fullEnd.state 422 fullRun := by
  have format : hdrFormat fullUpload ≠ formatPartial := by decide
  have apart (pos n : Nat) : Splits fullUpload pos n := fun is => absurd is format
  exact (fullUpload_feed apart).packet 40 fullThird fullThird_carries (apart _ _)
    (ok_of_toOption fullRun_checks.1)

theorem fullImages_listable : Listable fullImages := by
  apply listable_of_nodup
  · decide
  · unfold isHidden
    decide

/-- Three packets have a header and two images, and the table leads to both. -/
theorem fullRun_uploaded : ∃ f rs app other, directory fullRun = some (f, rs) ∧
    Lookup fullEnd.state.flash f appImgId app ∧ load fullEnd.state.flash app.imgStart 3 = [7, 8, 9] ∧
    Lookup fullEnd.state.flash f 77 other ∧ load fullEnd.state.flash other.imgStart 2 = [5, 6] := by
  obtain ⟨-, -, -, selects, accepts, acked, any⟩ := fullRun_checks
  have proper := proper_upper selects accepts fun flags =>
    fits_of_small (by decide) (by decide)
  obtain ⟨v, images, loads⟩ := List.any_eq_true.mp any
  cases v with
  | images raw hdrs flags =>
    simp only [Event.loadsAll, Bool.and_eq_true, beq_iff_eq] at loads
    obtain ⟨rfl, flagged⟩ := loads
    have flag (i : Nat) (lt : i < 2) : flags i = true :=
      List.all_eq_true.mp flagged i (List.mem_range.mpr lt)
    have found {i : Nat} {r : ImageHdr} (hr : fullImages[i]? = some r)
        (down : downloads flags i r.imageId = true) (data : 0 < imageLen fullUpload i)
        (whole : imageStart fullUpload flags i + imageLen fullUpload i ≤ 422) :=
      uploaded_images_found fullRun_feed fullRun_calls proper (separate_upper selects)
        (.of_all acked) images fullImages_listable hr down data whole
    have first : imageStart fullUpload flags 0 = imageStart fullUpload (fun _ => true) 0 := rfl
    have second : imageStart fullUpload flags 1 = imageStart fullUpload (fun _ => true) 1 := by
      rw [imageStart, flag 0 (by decide)]
      rfl
    have app : fullImages[0]? = some (plainImage appImgId blockSize 3) := rfl
    have other : fullImages[1]? = some (plainImage 77 blockSize 2) := rfl
    obtain ⟨f, rs, p, dir, appFound, appData⟩ :=
      found app (by unfold downloads; rw [flag 0 (by decide)]; rfl) (by decide)
        (by rw [first]; decide)
    obtain ⟨f', rs', q, dir', otherFound, otherData⟩ :=
      found other (by unfold downloads; rw [flag 1 (by decide)]; rfl) (by decide)
        (by rw [second]; decide)
    cases dir.symm.trans dir'
    refine ⟨f, rs, p, q, dir, appFound, appData.trans ?_, otherFound, otherData.trans ?_⟩
    · rw [first]
      decide
    · rw [second]
      decide
  | _ => cases loads

end Qapp.Fw
