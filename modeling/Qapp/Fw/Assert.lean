import Qapp.Fw.Steady
import Qapp.Fw.Ctl

/-!
# Assertions about the session

What a stretch of code makes of a session that is there: of the context and of the events, or
of the context when the code succeeds.
-/

namespace Qapp.Fw
open Traced

variable {α β : Type}

/-- There is a session, and `R` holds of it; in any case `X` holds of the events. -/
def Stays (X : List Event → Prop) (R : St → Cxt → List Event → Prop) (s : St) (l : List Event) :
    Prop :=
  (∃ c, s.cxt = some c ∧ R s c l) ∧ X l

section Stays
variable {X : List Event → Prop} {R T : St → Cxt → List Event → Prop} {m : M α} {f : α → M β}
  {Q : Except Status β → St → List Event → Prop}

theorem Stays.imp {s : St} {l : List Event} (h : Stays X R s l)
    (imp : ∀ c, R s c l → T s c l) : Stays X T s l :=
  ⟨h.1.imp fun _ held => ⟨held.1, imp _ held.2⟩, h.2⟩

/-- Code that keeps what `R` is about. -/
theorem stays_within {γ : Type} {F : Scope γ} (h : Within F.frame m) (open_ : F.ends = false)
    (more : ∀ l k, (∀ w ∈ k, F.event w = true) → X l → X (l ++ k))
    (keep : ∀ s t c d l k, F.keeps t d = F.keeps s c → (d.fwUpgradeState = c.fwUpgradeState ∨
      F.enters d.fwUpgradeState = true) → (∀ w ∈ k, F.event w = true) → R s c l → T t d (l ++ k)) :
    Triple (Stays X R) m fun _ => Stays X T := by
  apply Triple.of
  rintro s l ⟨⟨c, hc, held⟩, closed⟩
  obtain ⟨events, cxt, stays⟩ := h.run s
  constructor
  · obtain ⟨d, hd⟩ := Option.isSome_iff_exists.mp (stays open_ (Option.isSome_iff_exists.mpr ⟨c, hc⟩))
    obtain ⟨_, hc', same, state⟩ := cxt d hd
    obtain rfl := Option.some.inj (hc'.symm.trans hc)
    exact ⟨d, hd, keep s _ _ d l _ same state events held⟩
  · exact more l _ events closed

theorem stays_bind (first : Triple (Stays X R) m fun _ => Stays X T)
    (stop : ∀ err s l, X l → Q (.error err) s l)
    (rest : ∀ a, Triple (Stays X T) (f a) Q) : Triple (Stays X R) (m >>= f) Q :=
  .andThen first (fun err s l h => stop err s l h.2) rest

theorem stays_fail {err : Status} (stop : ∀ err s l, X l → Q (.error err) s l) :
    Triple (Stays X R) (Act.fail err : M β) Q :=
  .fail err fun s l h => stop err s l h.2

theorem stays_updateCxt {g : Cxt → Cxt}
    (step : ∀ s c l, R s c l → T { s with cxt := s.cxt.map g } (g c) l) :
    Triple (Stays X R) (updateCxt g) fun _ => Stays X T := by
  apply Triple.of
  rintro s l ⟨⟨c, hc, held⟩, closed⟩
  have same : l ++ (updateCxt g s).trace = l := List.append_nil l
  rw [same]
  exact ⟨⟨g c, congrArg (Option.map g) hc, step s c l held⟩, closed⟩

theorem stays_update {g : St → St} (cxt : ∀ s, (g s).cxt = s.cxt)
    (step : ∀ s c l, R s c l → T (g s) c l) :
    Triple (Stays X R) (Act.update g : M Unit) fun _ => Stays X T := by
  apply Triple.of
  rintro s l ⟨⟨c, hc, held⟩, closed⟩
  have same : l ++ ((Act.update g : M Unit) s).trace = l := List.append_nil l
  rw [same]
  exact ⟨⟨c, (cxt s).trans hc, step s c l held⟩, closed⟩

theorem stays_getCxt {f : Cxt → M β}
    (rest : ∀ c, Triple (fun s l => s.cxt = some c ∧ R s c l ∧ X l) (f c) Q) :
    Triple (Stays X R) (getCxt >>= f) Q := by
  rintro s l ⟨⟨c, hc, held⟩, closed⟩
  rw [Act.bind_ok (getCxt_run hc)]
  exact rest c s l ⟨hc, held, closed⟩

end Stays

/-! ## When the code succeeds -/

/-- There is a session, and `R` holds of it. -/
abbrev Has (R : St → Cxt → Prop) : St → List Event → Prop :=
  Stays (fun _ => True) fun s c _ => R s c

/-- A success leaves a session of which `Q` holds. -/
def Gives (Q : α → St → Cxt → Prop) : Except Status α → St → List Event → Prop :=
  fun r s l => ∀ a, r = .ok a → Has (Q a) s l

section Gives
variable {R T : St → Cxt → Prop} {m : M α} {f : α → M β} {K : α → St → Cxt → Prop}
  {Q : β → St → Cxt → Prop}

theorem Has.of {s : St} {c : Cxt} (hc : s.cxt = some c) (held : R s c) (l : List Event) :
    Has R s l := ⟨⟨c, hc, held⟩, trivial⟩

theorem gives_bind (first : Triple (Has R) m (Gives K))
    (rest : ∀ a, Triple (Has (K a)) (f a) (Gives Q)) : Triple (Has R) (m >>= f) (Gives Q) :=
  .bind (M := fun a => Has (K a)) (first.post fun r s l gives => by
    cases r with
    | ok a => exact gives a rfl
    | error err => exact fun _ failed => nomatch failed) rest

theorem gives_pure {a : β} (imp : ∀ s c, R s c → Q a s c) :
    Triple (Has R) (pure a : M β) (Gives Q) :=
  .pure a fun s _ has => by
    rintro _ ⟨⟩
    exact has.imp fun c => imp s c

theorem gives_fail {P : St → List Event → Prop} {err : Status} :
    Triple P (Act.fail err : M β) (Gives Q) :=
  .fail err fun _ _ _ _ failed => nomatch failed

theorem gives_orFail (h : Triple (Has R) m (Gives K)) (err : Status) :
    Triple (Has R) (m.orFail err) (Gives K) :=
  .orFail (h.post fun r s l gives => by
    cases r with
    | ok a =>
      rintro _ ⟨⟩
      exact gives a rfl
    | error => exact fun _ failed => nomatch failed)

theorem gives_cleanUp (h : Triple (Has R) m (Gives K)) (g : M Unit) :
    Triple (Has R) (m.cleanUp g) (Gives K) := by
  apply Triple.of
  intro s l has
  have gives := (h s l has).2
  unfold Act.cleanUp
  cases hr : (m s).res with
  | ok a =>
    simp only [hr] at gives ⊢
    exact gives
  | error err => exact fun _ failed => nomatch failed

theorem gives_ite {c : Prop} [Decidable c] {m k : M β} (yes : c → Triple (Has R) m (Gives Q))
    (no : ¬c → Triple (Has R) k (Gives Q)) : Triple (Has R) (if c then m else k) (Gives Q) :=
  .ite yes no

theorem gives_assume {φ : Prop} (h : φ → Triple (Has R) m (Gives K)) :
    Triple (Has fun s c => φ ∧ R s c) m (Gives K) := by
  rintro s l ⟨⟨c, hc, known, held⟩, -⟩
  exact h known s l (.of hc held l)

theorem gives_exists {ι : Type} {R : ι → St → Cxt → Prop}
    (h : ∀ i, Triple (Has (R i)) m (Gives K)) :
    Triple (Has fun s c => ∃ i, R i s c) m (Gives K) := by
  rintro s l ⟨⟨c, hc, i, held⟩, -⟩
  exact h i s l (.of hc held l)

theorem gives_imp {P : St → List Event → Prop} {K' : α → St → Cxt → Prop}
    (h : Triple P m (Gives K)) (imp : ∀ a s c, K a s c → K' a s c) : Triple P m (Gives K') :=
  h.post fun _ s _ gives a ok => (gives a ok).imp fun c => imp a s c

theorem gives_updateCxt {g : Cxt → Cxt} (step : ∀ s c, R s c →
    T { s with cxt := s.cxt.map g } (g c)) : Triple (Has R) (updateCxt g) (Gives fun _ => T) :=
  (stays_updateCxt fun s c _ => step s c).post fun _ _ _ has _ _ => has

theorem gives_getCxt {f : Cxt → M β}
    (rest : ∀ c, Triple (fun s _ => s.cxt = some c ∧ R s c) (f c) (Gives Q)) :
    Triple (Has R) (getCxt >>= f) (Gives Q) :=
  stays_getCxt fun c => (rest c).pre fun _ _ h => ⟨h.1, h.2.1⟩

theorem gives_emit {w : Event} : Triple (Has R) (Act.emit w : M Unit) (Gives fun _ => R) := by
  apply Triple.of
  rintro s l ⟨⟨c, hc, held⟩, -⟩ _ _
  exact .of hc held _

theorem gives_read {f : St → M β} (rest : ∀ s, Triple (Has R) (f s) (Gives Q)) :
    Triple (Has R) (Act.read >>= f) (Gives Q) :=
  .read_bind fun s => (rest s).pre fun _ _ h => h.2

/-- What succeeds from the context `c` gives `Q`. -/
theorem Gives.elim {s : St} {c : Cxt} {a : β} {m : M β} (h : Triple (Has R) m (Gives Q))
    (hc : s.cxt = some c) (held : R s c) (ok : (m s).res = .ok a) :
    ∃ d, (m s).state.cxt = some d ∧ Q a (m s).state d :=
  ((h s [] (.of hc held [])).2 a ok).1

end Gives

/-! ## The same course -/

/-- The progress without the digest. -/
def Cxt.course (c : Cxt) : Cxt := { c.progress with digest := .starts }

/-- Like `steady`, whatever is written or hashed or read of the packet. -/
def keeping : Scope (Option (List ImageHdr) × Cxt) where
  event w := !w.looksUp
  keeps s c := (s.imageHdr, c.course)
  enters _ := false
  ends := false

abbrev Keeping (m : M α) : Prop := Within keeping.frame m

section Keeping
variable {m : M α}

theorem Event.looks_of_plain {w : Event} (plain : w.plain = true) : (!w.looksUp) = true :=
  (Bool.and_eq_true_iff.mp (Bool.and_eq_true_iff.mp plain).1).2

theorem Keeping.of (h : Steady m) : Keeping m := by
  apply Scope.widen (S := steady) (T := keeping) (fun _ => Event.looks_of_plain) _
    (fun _ never => nomatch never) (fun _ => rfl) h
  intro s t c d same
  obtain ⟨hdrs, progress⟩ := Prod.ext_iff.mp same
  have course : d.progress.course = c.progress.course := congrArg Cxt.course progress
  exact Prod.ext hdrs course

theorem keeping_tune {f : Cxt → Cxt} (same : ∀ c, (f c).course = c.course)
    (state : ∀ c, (f c).fwUpgradeState = c.fwUpgradeState) : Keeping (updateCxt f) :=
  Scope.updateCxt (fun _ c => Prod.ext rfl (same c)) fun c => .inl (state c)

theorem writePartition_keeping (e : Env) (image hdl : Option Nat) (offset : Nat)
    (bytes : List UInt8) (addr : Nat) : Keeping (writePartition e image hdl offset bytes addr) :=
  writePartition_within Keeping.of e (fun _ _ _ => Scope.emit rfl) fun _ _ _ => Scope.emit rfl

theorem digestStarts_keeping : Keeping digestStarts := keeping_tune (fun _ => rfl) fun _ => rfl

theorem digestUpdate_keeping (bytes : List UInt8) : Keeping (digestUpdate bytes) :=
  keeping_tune (fun _ => rfl) fun _ => rfl

theorem padHash_keeping (img : ImageHdr) : Keeping (padHash img) :=
  .bind Scope.getCxt fun _ => .ite (.bind (Keeping.of (malloc_steady _)) fun _ =>
    .ite (.bind (digestUpdate_keeping _) fun _ => Keeping.of (free_steady _)) (.fail _)) (.pure _)

theorem verifyImageHash_keeping (e : Env) (img : ImageHdr) : Keeping (verifyImageHash e img) :=
  .bind Scope.getCxt fun _ => .bind (padHash_keeping _) fun _ => .bind Scope.getCxt fun _ =>
    .bind (.bind Scope.getCxt fun _ => .bind (keeping_tune (fun _ => rfl) fun _ => rfl) fun _ =>
      .pure _) fun _ => .bind (Scope.emit rfl) fun _ => .ite (.pure _) (.fail _)

end Keeping

/-- Header array, course and state are those of `x`. -/
structure OnCourse (hdrs : Option (List ImageHdr)) (x : Cxt) (s : St) (c : Cxt) : Prop where
  imageHdr : s.imageHdr = hdrs
  course : c.course = x.course
  state : c.fwUpgradeState = x.fwUpgradeState

section OnCourse
variable {hdrs : Option (List ImageHdr)} {x : Cxt} {m : M α}

theorem OnCourse.refl (s : St) (c : Cxt) : OnCourse s.imageHdr c s c := ⟨rfl, rfl, rfl⟩

/-- What depends on the course alone is that of `x`. -/
theorem OnCourse.field {s : St} {c : Cxt} (alike : OnCourse hdrs x s c) (f : Cxt → β)
    (depends : ∀ c, f c.course = f c) : f c = f x := by
  rw [← depends c, alike.course, depends x]

/-- What the course, the state and the header array decide stays. -/
theorem gives_keeping {R : St → Cxt → Prop} (h : Keeping m)
    (closed : ∀ s c t d, R s c → OnCourse s.imageHdr c t d → R t d) :
    Triple (Has R) m (Gives fun _ => R) :=
  (stays_within h rfl (fun _ _ _ _ => trivial) fun s t c d _ _ same state _ held => by
    obtain ⟨kept, course⟩ := Prod.ext_iff.mp same
    exact closed s c t d held ⟨kept, course, state.resolve_right Bool.false_ne_true⟩).post
    fun _ _ _ has _ _ => has

theorem OnCourse.trans {s t : St} {c d : Cxt} (first : OnCourse hdrs x s c)
    (second : OnCourse s.imageHdr c t d) : OnCourse hdrs x t d :=
  ⟨second.imageHdr.trans first.imageHdr, second.course.trans first.course,
    second.state.trans first.state⟩

theorem course_keeping (h : Keeping m) :
    Triple (Has (OnCourse hdrs x)) m (Gives fun _ => OnCourse hdrs x) :=
  gives_keeping h fun _ _ _ _ => OnCourse.trans

theorem course_steady (h : Steady m) :
    Triple (Has (OnCourse hdrs x)) m (Gives fun _ => OnCourse hdrs x) := course_keeping (Keeping.of h)

theorem course_getCxt {f : Cxt → M β} {Q : β → St → Cxt → Prop}
    (rest : ∀ s c, OnCourse hdrs x s c → Triple (Has (OnCourse hdrs x)) (f c) (Gives Q)) :
    Triple (Has (OnCourse hdrs x)) (getCxt >>= f) (Gives Q) := by
  apply gives_getCxt
  rintro c s l ⟨hc, alike⟩
  exact rest s c alike s l (.of hc alike l)

/-- An update of the course or the state. -/
theorem course_updateCxt {g : Cxt → Cxt} (course : ∀ c, (g c).course = (g c.course).course)
    (state : ∀ c, c.fwUpgradeState = x.fwUpgradeState →
      (g c).fwUpgradeState = (g x).fwUpgradeState) :
    Triple (Has (OnCourse hdrs x)) (updateCxt g) (Gives fun _ => OnCourse hdrs (g x)) :=
  gives_updateCxt fun s c alike => ⟨alike.imageHdr, by
    rw [course, alike.course, ← course], state c alike.state⟩

end OnCourse

end Qapp.Fw
