import Qapp.Fw.Loop

/-!
# Calls of the session

A packet at offset 0 starts the session again, also in the middle of an upload.
What has happened since then is a run of moves from a fresh context.
-/

namespace Qapp.Fw
open ByteMem Traced
open Relation (ReflTransGen)

variable {e : Env} {retry : Bool}

/-! ## Starting again -/

/-- Only memory is accounted for. -/
def Notes (l : List Event) : Prop := ∀ w ∈ l, ∃ n, w = .note n

theorem Notes.nil : Notes [] := by
  intro w hw
  cases hw

theorem Notes.one (n : Note) : Notes [.note n] := by
  intro w hw
  exact ⟨n, List.mem_singleton.mp hw⟩

theorem Notes.append {k l : List Event} (hk : Notes k) (hl : Notes l) : Notes (k ++ l) := by
  intro w hw
  rcases List.mem_append.mp hw with hw | hw
  · exact hk w hw
  · exact hl w hw

/-- The devices stay as they are. -/
structure Still (s t : St) : Prop where
  flash : t.flash = s.flash
  rram : t.rram = s.rram
  reads : t.readFaults <:+ s.readFaults
  ops : t.opFaults = s.opFaults

theorem Still.refl (s : St) : Still s s := ⟨rfl, rfl, List.suffix_refl _, rfl⟩

theorem Still.trans {s t u : St} (h : Still s t) (k : Still t u) : Still s u :=
  ⟨k.flash.trans h.flash, k.rram.trans h.rram, k.reads.trans h.reads, k.ops.trans h.ops⟩

theorem Still.of_oom {s t : St} (eq : t = { s with oom := t.oom }) : Still s t := by
  rw [eq]
  exact ⟨rfl, rfl, List.suffix_refl _, rfl⟩

theorem allocMemParams_run (s : St) :
    ∃ r t l, allocMemParams s = ⟨r, t, l⟩ ∧ t.cxt = s.cxt ∧ Still s t ∧ Notes l := by
  unfold allocMemParams
  rw [Act.bind_ok (Act.read_run s), Act.ite_run]
  split
  · exact ⟨_, s, [], rfl, rfl, .refl s, .nil⟩
  · obtain ⟨ok, t, run, eq, -⟩ := malloc_run .memParams s
    have kept : t.cxt = s.cxt := by rw [eq]
    rw [Act.bind_run, run, Act.andThen_ok]
    have still := Still.of_oom eq
    cases ok with
    | true =>
      exact ⟨_, _, _, rfl, kept, still.trans ⟨rfl, rfl, List.suffix_refl _, rfl⟩, .one _⟩
    | false =>
      exact ⟨_, _, _, rfl, kept, still.trans ⟨rfl, rfl, List.suffix_refl _, rfl⟩, .one _⟩

theorem init_run (e : Env) (s : St) :
    ∃ r t l, init e s = ⟨r, t, l⟩ ∧ t.cxt = s.cxt ∧ Still s t ∧ Notes l ∧
      (r = .ok () → t.fuInitialized = true) := by
  unfold init
  rw [Act.bind_ok (Act.read_run s), Act.ite_run]
  split
  · rename_i initialized
    exact ⟨_, s, [], rfl, rfl, .refl s, .nil, fun _ => initialized⟩
  rw [Act.ite_run]
  split
  · exact ⟨_, s, [], rfl, rfl, .refl s, .nil, by rintro ⟨⟩⟩
  · obtain ⟨r, t, l, run, cxt, still, notes⟩ := allocMemParams_run s
    rw [Act.bind_run, run]
    cases r with
    | error err => exact ⟨_, t, l, rfl, cxt, still, notes, by rintro ⟨⟩⟩
    | ok _ =>
      rw [Act.andThen_ok, Act.bind_ok (Act.update_run _ t)]
      obtain ⟨n, u, run, reads⟩ := getPartitionBaseOnGolden_run e { t with
        handles := fun k => if k < maxHandles then { t.handles k with refCount := 0 }
          else t.handles k }
      have kept : u.cxt = s.cxt := reads.cxt.trans cxt
      have still : Still s u := still.trans ⟨reads.flash, reads.rram, reads.suffix, reads.opFaults⟩
      rw [Act.bind_ok run, Act.bind_ok (Act.update_run _ u), Act.ite_run]
      split
      · exact ⟨_, _, _, rfl, kept, still.trans ⟨rfl, rfl, List.suffix_refl _, rfl⟩,
          by rwa [Act.fail_run, List.append_nil], by rintro ⟨⟩⟩
      · exact ⟨_, _, _, rfl, kept, still.trans ⟨rfl, rfl, List.suffix_refl _, rfl⟩,
          by rwa [Act.update_run, List.append_nil], fun _ => rfl⟩

/-- What `sessionInit` comes to from `s₀`. -/
inductive Begins (s₀ : St) : Except Status Unit → St → List Event → Prop
  | ok {t : St} {l : List Event} (cxt : t.cxt = some freshCxt) (init : t.fuInitialized = true)
      (still : Still s₀ t) (notes : Notes l) : Begins s₀ (.ok ()) t (l ++ [.start])
  | error {err : Status} {t : St} {l : List Event} (none : t.cxt = none) (still : Still s₀ t)
      (notes : Notes l) : Begins s₀ (.error err) t l

/-- Running `m` from `s`, after the events `k`, comes to a beginning. -/
def BeginsFrom (s₀ : St) (m : M Unit) (s : St) (k : List Event) : Prop :=
  Begins s₀ (m s).res (m s).state (k ++ (m s).trace)

section BeginsFrom
variable {s₀ : St}

theorem BeginsFrom.fail {err : Status} (digestCtx : Bool) {k : List Event} (hk : Notes k) {s : St}
    (still : Still s₀ s) : BeginsFrom s₀ (do
      sessionFin digestCtx
      Act.fail err) s k := by
  obtain ⟨hs, l, run, notes⟩ := sessionFin_run digestCtx s
  unfold BeginsFrom
  rw [Act.bind_run, run, Act.andThen_ok, Act.fail_run, List.append_nil]
  exact .error rfl (still.trans ⟨rfl, rfl, List.suffix_refl _, rfl⟩) (hk.append notes)

theorem BeginsFrom.bind {α : Type} {m : M α} {a : α} {f : α → M Unit} {s t : St} {k : List Event}
    (run : m s = ⟨.ok a, t, []⟩) (rest : BeginsFrom s₀ (f a) t k) : BeginsFrom s₀ (m >>= f) s k := by
  unfold BeginsFrom
  rw [Act.bind_ok run]
  exact rest

theorem BeginsFrom.attempt {α : Type} {m : M α} {r : Except Status α} {f : Except Status α → M Unit}
    {s t : St} {k l : List Event} (run : m s = ⟨r, t, l⟩) (rest : BeginsFrom s₀ (f r) t (k ++ l)) :
    BeginsFrom s₀ (m.attempt >>= f) s k := by
  unfold BeginsFrom
  rw [Act.attempt_bind_run run, ← List.append_assoc]
  exact rest

theorem BeginsFrom.malloc {b : Block} {f : Bool → M Unit} {s : St} {k : List Event} (hk : Notes k)
    (rest : ∀ ok t l, t = { s with oom := t.oom } → Notes l → BeginsFrom s₀ (f ok) t l) :
    BeginsFrom s₀ (do f (← malloc b)) s k := by
  obtain ⟨ok, t, run, eq, -⟩ := malloc_run b s
  have := rest ok t _ eq (hk.append (.one (if ok = true then .alloc b else .denied b)))
  unfold BeginsFrom at this ⊢
  rw [Act.bind_run, run, Act.andThen_ok, ← List.append_assoc]
  exact this

theorem BeginsFrom.ite {c : Prop} [Decidable c] {m n : M Unit} {s : St} {k : List Event}
    (yes : c → BeginsFrom s₀ m s k) (no : ¬c → BeginsFrom s₀ n s k) :
    BeginsFrom s₀ (if c then m else n) s k := by
  split
  · rename_i h
    exact yes h
  · rename_i h
    exact no h

theorem BeginsFrom.start {s : St} {k : List Event} (cxt : s.cxt = some freshCxt)
    (init : s.fuInitialized = true) (still : Still s₀ s) (hk : Notes k) :
    BeginsFrom s₀ (Act.emit .start) s k :=
  .ok cxt init still hk

end BeginsFrom

theorem sessionInit_begins (e : Env) (s : St) : BeginsFrom s (sessionInit e) s [] := by
  unfold sessionInit
  obtain ⟨r, t, k, run, cxt, still, notes, initialized⟩ := init_run e s
  apply BeginsFrom.attempt run
  rw [List.nil_append]
  cases r with
  | error err => exact .fail true notes still
  | ok _ =>
    have init := initialized rfl
    refine .bind (Act.read_run t) (.ite (fun _ => ?_) fun closed => ?_)
    · exact .bind (Act.update_run _ t)
        (.start rfl init (still.trans ⟨rfl, rfl, List.suffix_refl _, rfl⟩) notes)
    · have none : t.cxt = none := by simpa using closed
      refine .malloc notes fun ok t₁ k₁ eq₁ notes₁ => ?_
      have still₁ := still.trans (.of_oom eq₁)
      refine .ite (fun _ => .fail true notes₁ still₁) fun _ => ?_
      refine .malloc notes₁ fun ok t₂ k₂ eq₂ notes₂ => ?_
      have still₂ := still₁.trans (.of_oom eq₂)
      refine .ite (fun _ => ?_) fun _ => ?_
      · exact .error (by rw [eq₂, eq₁]; exact none) still₂ (notes₂.append (.one _))
      · refine .bind (Act.update_run _ t₂) (.malloc notes₂ fun ok t₃ k₃ eq₃ notes₃ => ?_)
        have still₃ : Still s t₃ := still₂.trans (by
          rw [eq₃]
          exact ⟨rfl, rfl, List.suffix_refl _, rfl⟩)
        refine .ite (fun _ => .fail false notes₃ still₃) fun _ => ?_
        refine .start (by rw [eq₃]) ?_ still₃ notes₃
        rw [eq₃, eq₂, eq₁]
        exact init

/-! ## Runs of calls -/

/-- Calls that all meet `ok`, the first of them without a session: the state before the
last one at offset 0, the state they lead to, and what has happened in between. -/
inductive Calls (e : Env) (ok : St → Packet → Prop) : St → St → List Event → Prop
  | idle {s : St} (none : s.cxt = none) : Calls e ok s s []
  | call {s₀ s : St} {l : List Event} (fuel : Nat) (p : Packet) (calls : Calls e ok s₀ s l)
      (met : ok s p) :
      Calls e ok (if p.offset = 0 then s else s₀) (sessionProcess e fuel p s).state
        ((if p.offset = 0 then [] else l) ++ (sessionProcess e fuel p s).trace)

theorem Calls.restart {ok : St → Packet → Prop} {s₀ s : St} {l : List Event}
    (calls : Calls e ok s₀ s l) (fuel : Nat) (p : Packet) (offset : p.offset = 0) (met : ok s p) :
    Calls e ok s (sessionProcess e fuel p s).state (sessionProcess e fuel p s).trace := by
  have := calls.call fuel p met
  rwa [if_pos offset, if_pos offset, List.nil_append] at this

theorem Calls.resume {ok : St → Packet → Prop} {s₀ s : St} {l : List Event}
    (calls : Calls e ok s₀ s l) (fuel : Nat) (p : Packet) (offset : p.offset ≠ 0) (met : ok s p) :
    Calls e ok s₀ (sessionProcess e fuel p s).state (l ++ (sessionProcess e fuel p s).trace) := by
  have := calls.call fuel p met
  rwa [if_neg offset, if_neg offset] at this

/-- The events `l` come from a session, which has made moves from a fresh context. -/
inductive Since (e : Env) (retry : Bool) (s₀ s : St) (l : List Event) : Prop
  | idle (none : s.cxt = none) (still : Still s₀ s) (notes : Notes l)
  | moves {s₁ : St} {k : List Event} (cxt : s₁.cxt = some freshCxt) (still : Still s₀ s₁)
      (notes : Notes k) (moves : Moves e retry (s₁, k ++ [.start]) (s, l))

/-- A call at another offset goes on with the session. -/
theorem sessionProcess_moves {s : St} {l : List Event} (enterable : Enterable retry s l)
    (fuel : Nat) {p : Packet} (offset : p.offset ≠ 0) :
    Moves e retry (s, l)
      ((sessionProcess e fuel p s).state, l ++ (sessionProcess e fuel p s).trace) := by
  have pass := @passPacket_moves e retry fuel p s l enterable
  unfold sessionProcess
  rw [Act.when_neg offset, Act.bind_ok (Act.pure_run () s)]
  exact pass.1

theorem Since.next {s₀ s : St} {l : List Event} (since : Since e retry s₀ s l)
    (enterable : Enterable retry s l) (fuel : Nat) {p : Packet} (offset : p.offset ≠ 0) :
    Since e retry s₀ (sessionProcess e fuel p s).state
      (l ++ (sessionProcess e fuel p s).trace) := by
  cases since with
  | idle none still notes =>
    unfold sessionProcess
    rw [Act.when_neg offset, Act.bind_ok (Act.pure_run () s)]
    rw [Act.bind_run, getCxt_none none, Act.andThen_error, List.append_nil]
    exact .idle none still notes
  | moves cxt still notes moves =>
    exact .moves cxt still notes (moves.trans (sessionProcess_moves enterable fuel offset))

/-- A call at offset 0 begins again. -/
theorem Since.restart (fuel : Nat) {p : Packet} (offset : p.offset = 0) (s : St) :
    Since e retry s (sessionProcess e fuel p s).state (sessionProcess e fuel p s).trace := by
  have begins := sessionInit_begins e s
  unfold BeginsFrom at begins
  rw [List.nil_append] at begins
  unfold sessionProcess
  rw [Act.when_pos offset, Act.bind_run]
  rcases run : sessionInit e s with ⟨r, t, l⟩
  rw [run] at begins
  cases begins with
  | error none still notes =>
    rw [Act.orFail_error run, Act.andThen_error]
    exact .idle none still notes
  | ok cxt init still notes =>
    rw [Act.orFail_ok run, Act.andThen_ok]
    have enterable : ∀ k, Enterable retry t k := fun k =>
      ⟨.of_ctl cxt (freshCxt_ctl init), .inr (.of_ne cxt fun h => by cases h)⟩
    exact .moves cxt still notes (passPacket_moves fuel p t _ (enterable _)).1

/-- A call leaves the control state as it should be, whatever the packet. -/
theorem Good.call {s : St} (good : Good s) (fuel : Nat) (p : Packet) :
    Good (sessionProcess e fuel p s).state := by
  have pass := fun t (h : Good t) => (@passPacket_moves e true fuel p t [] ⟨h, .inl rfl⟩).2
  unfold sessionProcess
  by_cases offset : p.offset = 0
  · have begins := sessionInit_begins e s
    unfold BeginsFrom at begins
    rw [List.nil_append] at begins
    rw [Act.when_pos offset, Act.bind_run]
    rcases run : sessionInit e s with ⟨r, t, l⟩
    rw [run] at begins
    cases begins with
    | error none still notes =>
      rw [Act.orFail_error run, Act.andThen_error]
      intro c hc
      cases none.symm.trans hc
    | ok cxt init still notes =>
      rw [Act.orFail_ok run, Act.andThen_ok]
      exact pass t (.of_ctl cxt (freshCxt_ctl init))
  · rw [Act.when_neg offset, Act.bind_ok (Act.pure_run () s)]
    exact pass s good

variable (retry) in
theorem Calls.since {ok : St → Packet → Prop} {s₀ s : St} {l : List Event}
    (calls : Calls e ok s₀ s l)
    (again : ∀ s p, ok s p → p.offset = 0 ∨ retry = true ∨ NotBegun s) :
    Good s ∧ Since e retry s₀ s l := by
  induction calls with
  | idle none => exact ⟨fun c hc => (by cases none.symm.trans hc), .idle none (.refl _) .nil⟩
  | @call s₀ s l fuel p calls met ih =>
    obtain ⟨good, since⟩ := ih
    refine ⟨good.call fuel p, ?_⟩
    by_cases offset : p.offset = 0
    · rw [if_pos offset, if_pos offset, List.nil_append]
      exact .restart fuel offset s
    · rw [if_neg offset, if_neg offset]
      exact since.next ⟨good, (again s p met).resolve_left offset⟩ fuel offset

/-! ## A device to try it on -/

/-- The packet that passes `bytes`, in front of zeros. -/
def Packet.of (offset : Nat) (bytes : List UInt8) : Packet where
  offset := offset
  len := bytes.length
  data := fun x => bytes.getD x 0
  null := fun _ => 0
  addr := 0
  wild := fun _ => ⟨0, 0, 0, 0, 0, 0, []⟩

def ImageHdr.encoded (img : ImageHdr) : List UInt8 :=
  leBytes 4 img.magic ++ leBytes 4 img.imageId ++ leBytes 4 img.version ++ List.replicate 128 0 ++
    leBytes 4 img.diskSize ++ leBytes 4 img.imageLength ++ leBytes 4 img.hashType ++ img.hash

/-- A header with the hash that `plainEnv` gives. -/
def encodedHeader (format : Nat) (imgs : List ImageHdr) : List UInt8 :=
  leBytes 4 magicV1 ++ leBytes 4 1 ++ leBytes 4 format ++
    leBytes 4 (hdrPart1Len + imgs.length * imageHdrLen + hashLen) ++ [UInt8.ofNat imgs.length] ++
    imgs.flatMap ImageHdr.encoded ++ List.replicate hashLen 0

theorem plainBlocks_lt : 600 < 2 ^ 20 := by decide

/-- 600 blocks, and one hash for everything. -/
def plainEnv : Env where
  blocks := 600
  blocks_lt := plainBlocks_lt
  sha := fun _ => List.replicate hashLen 0
  junk := fun _ => 0

def plainImage (id diskSize length : Nat) : ImageHdr :=
  ⟨1, id, 1, diskSize, length, 1, List.replicate hashLen 0⟩

/-- A table with status VALID and rank 1. -/
def encodedFwd (entries : List (List UInt8)) : List UInt8 :=
  leBytes 4 magicV1 ++ leBytes 4 1 ++ leBytes 4 1 ++ [1, UInt8.ofNat entries.length] ++
    List.replicate 18 0xFF ++ entries.flatten

/-- FWD 0 runs and lists `entries`; the descriptor table has it and an aged SBL. -/
def factory (entries : List (List UInt8)) : St where
  flash := store (fun _ => 0xFF) 0 (encodedFwd entries)
  rram := store (store (fun _ => 0) fdtStart (leBytes 4 magicV1 ++ leBytes 4 2)) (fdeAddr 0)
    (leBytes 4 fdeIdApp ++ leBytes 4 fdeRankCurrent ++ leBytes 24 0 ++
      leBytes 4 fdeIdSbl ++ leBytes 4 fdeRankAged ++ leBytes 4 0 ++ leBytes 4 0x210000 ++
      leBytes 16 0)
  readFaults := []
  opFaults := []
  oom := []
  handles := fun _ => ⟨0, 0, 0, 0, 0, 0, 0⟩
  memParams := false
  fuInitialized := false
  fwdSupportNum := 0
  cxt := none
  imageHdr := none

/-- A file system in two areas of one block, and an application. -/
def plainDevice : St :=
  factory [entryBytes fs1ImgId 1 (3 * blockSize) blockSize,
    entryBytes fs2ImgId 1 (4 * blockSize) blockSize, entryBytes appImgId 1 (5 * blockSize) blockSize]

/-- An application of one byte, after its header. -/
def plainUpload : List UInt8 := encodedHeader 2 [plainImage appImgId blockSize 1] ++ [7]

/-- An application of three bytes and an image of two, after their header. -/
def fullUpload : List UInt8 :=
  encodedHeader 2 [plainImage appImgId blockSize 3, plainImage 77 blockSize 2] ++ [7, 8, 9, 5, 6]

def fullFirst : Packet := .of 0 (fullUpload.take 200)

/-- The rest of the header, the application and the first byte of the other image. -/
def fullSecond : Packet := .of 200 ((fullUpload.drop 200).take 221)

def fullThird : Packet := .of 421 [6]

end Qapp.Fw
