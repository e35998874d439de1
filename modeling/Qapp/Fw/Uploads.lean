import Qapp.Fw.Requests

/-!
# Reassembling an upload

Whatever segments of a stream arrive, what is passed on to the session since the
last segment at offset 0 is a prefix of the stream.
-/

namespace Qapp.Fw

variable {σ : Type} {process : Nat → List UInt8 → σ → Option Status × σ} {fits : Bool}
  {S : List UInt8} {calls : List Call}

/-- A request that was decoded to a non-empty slice of the stream. -/
structure Slice (S : List UInt8) (r : UploadRequest) : Prop where
  decoded : r.rc = 0
  nonempty : r.vars.data ≠ []
  within : r.vars.off + r.vars.data.length ≤ S.length
  data : r.vars.data = (S.drop r.vars.off).take r.vars.data.length
  small : r.vars.off + r.vars.data.length < 2 ^ 32

/-- The calls since the last request at offset 0. -/
def passed (run : List (UploadRequest × Reply σ)) : List Call :=
  run.foldl (fun calls x => (if x.1.vars.off = 0 then [] else calls) ++ x.2.call.toList) []

/-- The expected offset after a run that began with `sv`. -/
def lastServer (run : List (UploadRequest × Reply σ)) (sv : Server σ) : Server σ :=
  run.foldl (fun _ x => x.2.server) sv

/-- The calls pass the first `offset` bytes of the stream, each where the previous one
ended. -/
structure Assembles (S : List UInt8) (calls : List Call) (offset : Nat) : Prop where
  bytes : calls.flatMap Call.data = S.take offset
  within : offset ≤ S.length
  offsets : ∀ before call after, calls = before ++ call :: after →
    call.offset = (before.flatMap Call.data).length

theorem Assembles.none : Assembles S [] 0 where
  bytes := rfl
  within := Nat.zero_le _
  offsets := by simp

theorem Assembles.length {offset : Nat} (h : Assembles S calls offset) :
    (calls.flatMap Call.data).length = offset := by
  rw [h.bytes, List.length_take]
  exact Nat.min_eq_left h.within

/-- One more call at the expected offset. -/
theorem Assembles.snoc {offset : Nat} (h : Assembles S calls offset) {data : List UInt8}
    {status : Option Status} (within : offset + data.length ≤ S.length)
    (slice : data = (S.drop offset).take data.length) :
    Assembles S (calls ++ [⟨offset, data, status⟩]) (offset + data.length) where
  bytes := by
    rw [List.flatMap_append, h.bytes, List.take_add, ← slice]
    simp
  within := within
  offsets := by
    intro before call after eq
    rcases List.append_eq_append_iff.mp eq.symm with ⟨more, rfl, tail⟩ | ⟨more, rfl, tail⟩
    · cases more with
      | nil =>
        cases tail
        rw [List.append_nil] at h
        exact h.length.symm
      | cons c cs =>
        cases tail
        exact h.offsets before call cs rfl
    · cases more with
      | nil =>
        cases tail
        rw [List.append_nil]
        exact h.length.symm
      | cons c cs => simp at tail

/-- What is left of a slice behind `k` of its bytes. -/
theorem Slice.drop {r : UploadRequest} (slice : Slice S r) (k : Nat) :
    r.vars.data.drop k = (S.drop (r.vars.off + k)).take (r.vars.data.drop k).length := by
  rw [List.length_drop]
  conv_lhs => rw [slice.data]
  rw [List.drop_take, List.drop_drop]

/-- The reply to a segment, on top of the `calls` since the last restart. -/
structure Serves (fits : Bool) (S : List UInt8) (calls : List Call) (reply : Reply σ) :
    Prop where
  assembles : Assembles S (calls ++ reply.call.toList) reply.server.offset
  answer : reply.answer = .success fits (some reply.server.offset)

/-- Data that follows what is assembled is passed on. -/
theorem passData_serves {sv : Server σ} (h : Assembles S calls sv.offset) {data : List UInt8}
    (within : sv.offset + data.length ≤ S.length) (small : sv.offset + data.length < 2 ^ 32)
    (slice : data = (S.drop sv.offset).take data.length)
    (ok : ∀ call, (passData process fits sv.offset data (sv.offset + data.length) sv).call =
      some call → call.status = none) :
    Serves fits S calls (passData process fits sv.offset data (sv.offset + data.length) sv) := by
  revert ok
  unfold passData
  cases process sv.offset data sv.session with
  | mk result session =>
    cases result with
    | some err =>
      intro ok
      cases ok _ rfl
    | none =>
      intro _
      constructor
      · rw [Nat.mod_eq_of_lt small]
        exact h.snoc within slice
      · rw [Nat.mod_eq_of_lt small]

theorem uploadSegment_serves {r : UploadRequest} (slice : Slice S r) {sv : Server σ}
    (h : Assembles S calls sv.offset)
    (ok : ∀ call, (uploadSegment process fits r.vars sv).call = some call → call.status = none) :
    Serves fits S (if r.vars.off = 0 then [] else calls) (uploadSegment process fits r.vars sv) := by
  have here : Assembles S (if r.vars.off = 0 then [] else calls)
      (if r.vars.off = 0 then { sv with offset := 0 } else sv).offset := by
    split
    · exact .none
    · exact h
  revert ok
  unfold uploadSegment
  generalize (if r.vars.off = 0 then { sv with offset := 0 } else sv) = sv at here
  generalize (if r.vars.off = 0 then [] else calls) = calls at here
  have small := slice.small
  have within := slice.within
  have some_data : 0 < r.vars.data.length := List.length_pos_iff.mpr slice.nonempty
  simp only [Nat.mod_eq_of_lt small]
  have kept : Serves fits S calls ⟨.success fits (some sv.offset), none, sv⟩ := by
    constructor
    · simpa using here
    · rfl
  split
  · rename_i before
    split
    · exact fun _ => kept
    · rename_i partly
      -- the new part of the segment starts at the expected offset
      have start : r.vars.off + (sv.offset - r.vars.off) = sv.offset := by omega
      have rest := slice.drop (sv.offset - r.vars.off)
      rw [start] at rest
      have length : (r.vars.data.drop (sv.offset - r.vars.off)).length =
          r.vars.off + r.vars.data.length - sv.offset := by
        rw [List.length_drop]
        omega
      rw [if_pos (by omega), show r.vars.off + r.vars.data.length = sv.offset +
        (r.vars.data.drop (sv.offset - r.vars.off)).length by omega]
      intro ok
      exact passData_serves here (by omega) (by omega) rest ok
  · split
    · exact fun _ => kept
    · have start : r.vars.off = sv.offset := by omega
      have data := slice.data
      rw [start] at data small within ⊢
      intro ok
      exact passData_serves here within small data ok

/-- For every sequence of slices: what is passed on since the last restart is the
stream up to the expected offset, and a success reports that offset. -/
theorem uploads_assemble {rs : List (UploadRequest × Bool)} {sv : Server σ}
    (start : sv.offset = 0) (slices : ∀ r ∈ rs, Slice S r.1)
    (ok : ∀ x ∈ serveUploads process rs sv, ∀ call, x.2.call = some call →
      call.status = none) :
    Assembles S (passed (serveUploads process rs sv))
      (lastServer (serveUploads process rs sv) sv).offset ∧
    ∀ x ∈ serveUploads process rs sv, x.2.answer.ret = .eok →
      x.2.answer.off = some x.2.server.offset := by
  have run : ∀ calls, Assembles S calls sv.offset →
      Assembles S ((serveUploads process rs sv).foldl
        (fun calls x => (if x.1.vars.off = 0 then [] else calls) ++ x.2.call.toList) calls)
        (lastServer (serveUploads process rs sv) sv).offset ∧
      ∀ x ∈ serveUploads process rs sv, x.2.answer.ret = .eok →
        x.2.answer.off = some x.2.server.offset := by
    clear start
    induction rs generalizing sv with
    | nil =>
      intro calls h
      exact ⟨h, fun x hx => nomatch hx⟩
    | cons request rs ih =>
      obtain ⟨r, fits⟩ := request
      intro calls h
      have slice := slices (r, fits) (List.mem_cons_self ..)
      have segment : upload process fits r sv = uploadSegment process fits r.vars sv :=
        if_pos slice.decoded
      have first := ok _ (List.mem_cons_self ..)
      simp only [segment] at first
      have serves := uploadSegment_serves slice h first
      unfold serveUploads at ok ⊢
      rw [segment] at ok ⊢
      obtain ⟨assembles, answers⟩ := ih (fun r hr => slices r (List.mem_cons_of_mem _ hr))
        (fun x hx => ok x (List.mem_cons_of_mem _ hx)) _ serves.assembles
      refine ⟨assembles, fun x hx => ?_⟩
      rcases List.mem_cons.mp hx with rfl | hx
      · simp only [serves.answer]
        cases fits <;> simp [Answer.success]
      · exact answers x hx
  apply run
  rw [start]
  exact .none

/-- A request with a slice of `[1, 2, 3, 4]`. -/
def sliceRequest (off n : Nat) : UploadRequest :=
  .ok 3 ⟨off, ([1, 2, 3, 4].drop off).take n⟩

/-- Segments that overlap, a restart and a duplicate; the answer to the first does not fit. -/
theorem overlapping_uploads_assemble :
    Assembles [1, 2, 3, 4] (passed (serveUploads (fun _ _ (_ : Unit) => (none, ()))
      [(sliceRequest 0 2, false), (sliceRequest 1 2, true), (sliceRequest 0 3, true),
        (sliceRequest 2 2, true), (sliceRequest 3 1, true)] ⟨(), 0⟩)) 4 := by
  refine (uploads_assemble rfl ?_ ?_).1
  · intro r hr
    simp only [List.mem_cons, List.not_mem_nil, or_false] at hr
    rcases hr with rfl | rfl | rfl | rfl | rfl <;> constructor <;> decide
  · simp [serveUploads, upload, uploadSegment, sliceRequest, Decoded.ok, passData]

end Qapp.Fw
