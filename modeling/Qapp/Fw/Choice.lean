import Qapp.Fw.Track

/-!
# The choice of the trial FWD

As long as the tables can be read, a session takes the FWD that follows from the current one.
-/

namespace Qapp.Fw
open ByteMem Traced
open Relation (ReflTransGen)

variable {e : Env} {s t s₀ : St} {h h' l k : List Event} {f num : Nat}

/-! ## The selected FWD -/

/-- The index `selectTrialFwd` takes when the scan reports `current`. -/
def trialIndex (num current : Nat) : Nat :=
  if num = 2 then if current = 0 then 1 else 0
  else if current = 0 then 1 else if current = 1 then 2 else 1

theorem trialIndex_ne (num current : Nat) : trialIndex num current ≠ current := by
  unfold trialIndex
  split
  · split <;> omega
  · split
    · omega
    · split <;> omega

theorem trialIndex_golden {num current : Nat} (three : num ≠ 2) : trialIndex num current ≠ 0 := by
  unfold trialIndex
  rw [if_neg three]
  split
  · decide
  · split <;> decide

theorem trialIndex_lt (num current : Nat) : trialIndex num current < maxFwd := by
  unfold trialIndex
  split
  · split <;> decide
  · split
    · decide
    · split <;> decide

/-! ## Looking at tables -/

/-- Handles are used, and reads are made. -/
def glancing : Frame St Event where
  rel s l t := l = [] ∧ t = { s with handles := t.handles, readFaults := t.readFaults } ∧
    t.readFaults <:+ s.readFaults
  refl _ := ⟨rfl, rfl, List.suffix_refl _⟩
  trans := by
    rintro s t u l k ⟨rfl, same, suffix⟩ ⟨rfl, same', suffix'⟩
    refine ⟨rfl, ?_, suffix'.trans suffix⟩
    rw [same', same]

theorem findPartition_glances (e : Env) (fwdIdx id : Nat) :
    Within glancing (findPartition e fwdIdx id) := by
  constructor
  intro s
  obtain ⟨err, t, run, reads⟩ | ⟨k, c, t, run, reads, -⟩ := findPartition_cases e fwdIdx id s
  · rw [run]
    refine ⟨rfl, ?_, reads.suffix⟩
    rw [reads.eq]
  · rw [run]
    refine ⟨rfl, ?_, reads.suffix⟩
    rw [setHandle, reads.eq]

theorem partitionEnd_glances (e : Env) (fwdIdx id imgStart : Nat) :
    Within glancing (partitionEnd e fwdIdx id imgStart) :=
  .bind (.attempt (findPartition_glances e fwdIdx id)) fun r => by
    cases r with
    | error err => exact .pure _
    | ok k =>
      exact .bind .read fun _ => .bind (.update fun _ => ⟨rfl, rfl, List.suffix_refl _⟩)
        fun _ => .pure _

theorem getFirst_glances (e : Env) : Within glancing (getFirstProgrammingImageStartAddress e) :=
  .bind .read fun _ => .bind (partitionEnd_glances ..) fun _ =>
    .bind (partitionEnd_glances ..) fun _ => .bind (partitionEnd_glances ..) fun _ =>
    .bind (partitionEnd_glances ..) fun _ => .pure _

/-! ## Selecting -/

/-- The selected index follows from the tables. -/
def FromTables (m : Mem) (num : Nat) (r : Except Status (Nat × Nat × Nat)) (_ : St)
    (_ : List Event) : Prop :=
  ∀ i start size, r = .ok (i, start, size) → i = trialIndex num (scan m num).current

theorem FromTables.stop {m : Mem} (err : Status) : FromTables m num (.error err) s l := by
  intro i start size eq
  cases eq

theorem FromTables.picks {m : Mem} {P : St → List Event → Prop} {i : Nat} (start size : Nat)
    (hi : i = trialIndex num (scan m num).current) :
    Triple P (pure (i, start, size)) (FromTables m num) := by
  refine .pure _ fun s l _ i' start' size' eq => ?_
  exact (Prod.mk.inj (Except.ok.inj eq)).1.symm.trans hi

theorem FromTables.endAddr {m : Mem} {P : St → List Event → Prop} (e : Env)
    {rest : Nat → M (Nat × Nat × Nat)}
    (h : ∀ a, Triple (fun _ _ => True) (rest a) (FromTables m num)) :
    Triple P (getImageSetEndAddr e 0 >>= rest) (FromTables m num) :=
  .andThen (K := fun _ _ _ => True) (Triple.of fun _ _ _ => trivial)
    (fun err _ _ _ => .stop err) h

/-- Where the tables can be read, they decide which FWD is selected. -/
theorem selectTrialFwd_index {start size : Nat} (dev : e.HoldsFwds) (init : s.fuInitialized = true)
    (clean : s.readFaults = []) (selected : (selectTrialFwd e s).res = .ok (f, start, size)) :
    f = trialIndex s.fwdSupportNum (scan s.flash s.fwdSupportNum).current := by
  have glances := (getFirst_glances e).run s
  rcases run : getFirstProgrammingImageStartAddress e s with ⟨r, t, l⟩
  rw [run] at glances
  obtain ⟨-, (same : t = _), (suffix : t.readFaults <:+ _)⟩ := glances
  have flash : t.flash = s.flash := by rw [same]
  have num : t.fwdSupportNum = s.fwdSupportNum := by rw [same]
  have init' : t.fuInitialized = true := by
    rw [same]
    exact init
  have clean' : t.readFaults = [] := by
    rw [clean] at suffix
    exact List.suffix_nil.mp suffix
  have triple : Triple (fun u _ => u = s) (selectTrialFwd e)
      (FromTables s.flash s.fwdSupportNum) := by
    unfold selectTrialFwd
    refine .read_bind fun s₁ => .assume (fun u l pre => pre.1.symm.trans pre.2) fun same => ?_
    rw [same]
    refine .ite (fun _ => .fail _ fun _ _ _ => .stop _) fun several => ?_
    refine .andThen (K := fun _ u _ => u = t) (Triple.of ?_) (fun err _ _ _ => .stop err)
      fun imgStart => ?_
    · rintro u l ⟨-, rfl⟩
      rw [run]
    refine .andThen (K := fun r _ _ => ∃ found, r = .ok (found, scan s.flash s.fwdSupportNum))
      (Triple.of ?_) (fun err _ _ _ => .stop err) fun (found, b) => ?_
    · rintro u l rfl
      rw [getTrialActiveFwdIndex_clean dev init' (by rw [num]; exact several) clean', flash, num]
      exact ⟨_, rfl⟩
    refine .assume (fun u l pre => ?_) fun (eq : b = scan s.flash s.fwdSupportNum) => ?_
    · obtain ⟨found', eq⟩ := pre
      exact (Prod.mk.inj (Except.ok.inj eq)).2
    rw [eq]
    refine .ite (fun two => ?_) fun three => ?_
    · have index : trialIndex s.fwdSupportNum (scan s.flash s.fwdSupportNum).current =
          if (scan s.flash s.fwdSupportNum).current = 0 then 1 else 0 := if_pos two
      refine .ite (fun _ => ?_) fun _ => FromTables.picks _ _ index.symm
      exact FromTables.endAddr e fun a => .ite (fun _ => FromTables.picks _ _ index.symm)
        fun _ => FromTables.picks _ _ index.symm
    · have index : trialIndex s.fwdSupportNum (scan s.flash s.fwdSupportNum).current =
          if (scan s.flash s.fwdSupportNum).current = 0 then 1
          else if (scan s.flash s.fwdSupportNum).current = 1 then 2 else 1 := if_neg three
      exact FromTables.endAddr e fun a => FromTables.picks _ _ index.symm
  exact (triple s [] rfl).2 _ _ _ selected

/-! ## Moves -/

/-- The module stays initialized, and no reads fail but those that were to fail. -/
structure Serviced (s t : St) : Prop where
  init : s.fuInitialized = true → t.fuInitialized = true ∧ t.fwdSupportNum = s.fwdSupportNum
  reads : t.readFaults <:+ s.readFaults

theorem Serviced.refl (s : St) : Serviced s s := ⟨fun init => ⟨init, rfl⟩, List.suffix_refl _⟩

theorem Serviced.trans {u : St} (first : Serviced s t) (rest : Serviced t u) : Serviced s u := by
  refine ⟨fun init => ?_, rest.reads.trans first.reads⟩
  obtain ⟨init, num⟩ := first.init init
  obtain ⟨init, num'⟩ := rest.init init
  exact ⟨init, num'.trans num⟩

theorem Serviced.same {u : St} (h : Serviced s t) (init : u.fuInitialized = t.fuInitialized)
    (num : u.fwdSupportNum = t.fwdSupportNum) (reads : u.readFaults = t.readFaults) :
    Serviced s u := by
  refine ⟨fun before => ?_, reads ▸ h.reads⟩
  rw [init, num]
  exact h.init before

theorem Touches.serviced {P : Issuer → Op → Outcome → Prop} (touches : Touches e P s l t) :
    Serviced s t := ⟨touches.init, touches.readFaults⟩

theorem Quiet.serviced (q : Quiet s t) : Serviced s t := ⟨q.init, q.reads⟩

theorem Ran.serviced {op : Op} {out : Outcome} (ran : Ran s op out t) : Serviced s t :=
  ⟨fun init => ⟨ran.init.trans init, ran.num⟩, ran.readFaults ▸ List.suffix_refl _⟩

theorem Move.serviced {retry : Bool} (m : Move e retry (s, h) (t, h')) : Serviced s t := by
  cases m with
  | quiet q => exact q.serviced
  | select hc state selected q other | complete hs hc current part pos full notes q hash
  | giveUp hs hc state events q => exact q.serviced.same rfl rfl rfl
  | note | reset | close | attach | detach | tune | aim | early | headerHash | accept | skipTo
  | begin | lost | skipEmpty | dupBegin | dupNext | dupSkip =>
    exact (Serviced.refl s).same rfl rfl rfl
  | erased hc state lt possible ran => exact ran.serviced.same rfl rfl rfl
  | notErased hc state lt bad possible ran | field hc state first lt header possible ran
  | validate hc state lt possible ran | fde hc state possible ran => exact ran.serviced
  | bulk hc state which found touches | dupWork hc state part imageHdr hdr touches =>
    exact touches.serviced
  | hide hc state first fwd hidden entered | noEntry hc state fwd bad entered =>
    exact entered.touches.serviced
  | emptyFs1 hs hc state loose first empty fwd id entered
  | dupPlace hs hc state loose imageHdr hdr flag special fwd id start size entered handle =>
    exact entered.touches.serviced.same rfl rfl rfl
  | @place _ t u _ _ _ _ _ _ _ _ hs hc current count len placed entered first handle reset =>
    have erase : Serviced t u := by
      split at first
      · obtain ⟨-, rfl, -⟩ := first
        exact .refl _
      · exact first.touches.serviced
    exact (entered.touches.serviced.trans erase).same rfl rfl rfl
  | chunk bufOffset hc current part ne fit ahead write next =>
    exact (chunk_access fit ahead write next).serviced.same rfl rfl rfl
  | spoil bufOffset hc current part fit ahead write =>
    exact (spoil_access fit ahead write).serviced.same rfl rfl rfl

/-- How a move changes what a session aims at. -/
inductive Choosing (e : Env) (s : St) (c d : Cxt) (k : List Event) : Prop
  | on (fwd : d.trialFwdIdx = c.trialFwdIdx) (aimed : d.aimed → c.aimed)
      (erased : d.fwUpgradeState.erased = c.fwUpgradeState.erased)
      (unselected : ∀ f a n, .selected f a n ∉ k)
      (undone : c.fwUpgradeState.erased = false → ∀ w o, .op w o .done ∉ k)
  | away (aimed : ¬d.aimed) (erased : c.fwUpgradeState.erased = false) (nothing : k = [])
  | select {start size : Nat} (erased : c.fwUpgradeState.erased = false)
      (state : d.fwUpgradeState = .eraseFwd)
      (selected : (selectTrialFwd e s).res = .ok (d.trialFwdIdx, start, size))
      (event : k = [.selected d.trialFwdIdx start size])
  | erase (state : c.fwUpgradeState = .eraseFwd) (fwd : d.trialFwdIdx = c.trialFwdIdx)
      (erased : d.fwUpgradeState.erased = true)
      (event : k = [.op (.fwd c.trialFwdIdx) (.erase (fwdAddr c.trialFwdIdx) blockSize) .done])

section Choosing
variable {c d : Cxt}

/-- Nothing happens to the devices. -/
theorem Choosing.silent (fwd : d.trialFwdIdx = c.trialFwdIdx)
    (state : d.fwUpgradeState = c.fwUpgradeState) (unselected : ∀ f a n, .selected f a n ∉ k)
    (silent : ∀ w o r, .op w o r ∉ k) : Choosing e s c d k := by
  refine .on fwd (fun aimed => ?_) (by rw [state]) unselected fun _ w o => silent w o _
  unfold Cxt.aimed at *
  rwa [state] at aimed

/-- Something is done behind the erase. -/
theorem Choosing.behind (fwd : d.trialFwdIdx = c.trialFwdIdx)
    (state : d.fwUpgradeState = c.fwUpgradeState) (erased : c.fwUpgradeState.erased = true)
    (unselected : ∀ f a n, .selected f a n ∉ k) : Choosing e s c d k := by
  refine .on fwd (fun _ => .inr erased) (by rw [state]) unselected fun not => ?_
  cases erased.symm.trans not

theorem Touches.unselected {P : Issuer → Op → Outcome → Prop} (touches : Touches e P s k t) :
    ∀ f a n, .selected f a n ∉ k := by
  intro f a n mem
  rcases touches.events _ mem with ⟨note, eq⟩ | ⟨w, o, r, eq, -⟩ <;> cases eq

theorem Touches.choosing {P : Issuer → Op → Outcome → Prop} (touches : Touches e P s k t)
    (erased : c.fwUpgradeState.erased = true) : Choosing e s c c k :=
  .behind rfl rfl erased touches.unselected

theorem Move.choosing {retry : Bool} (m : Move e retry (s, h) (t, h')) (hd : t.cxt = some d) :
    ∃ c k, s.cxt = some c ∧ h' = h ++ k ∧ Choosing e s c d k := by
  have none : ∀ {c : Cxt}, s.cxt = some c → d.trialFwdIdx = c.trialFwdIdx →
      d.fwUpgradeState = c.fwUpgradeState → ∃ c k, s.cxt = some c ∧ h = h ++ k ∧
        Choosing e s c d k := fun hc fwd state =>
    ⟨_, [], hc, (List.append_nil h).symm, .silent fwd state (by simp) (by simp)⟩
  cases m with
  | quiet q => exact none (q.cxt.symm.trans hd) rfl rfl
  | close => cases hd
  | note n => exact ⟨_, _, hd, rfl, .silent rfl rfl (by simp) (by simp)⟩
  | reset => exact ⟨_, _, hd, rfl, .silent rfl rfl (by simp) (by simp)⟩
  | headerHash bytes equal hc first =>
    exact ⟨_, _, hd, rfl, .silent rfl rfl (by simp) (by simp)⟩
  | attach hs k hc | detach hs hc | early _ _ _ _ _ _ _ _ _ hc | skipTo _ hc | begin hc
  | lost _ hc | skipEmpty _ hc | dupBegin hc | dupNext _ hc | dupSkip hc =>
    cases hd
    exact none hc rfl rfl
  | tune bufLen bufOffset hidden config state hc edge =>
    cases hd
    refine ⟨_, [], hc, (List.append_nil h).symm, .on rfl (fun aimed => ?_) edge.erased (by simp)
      (by simp)⟩
    exact aimed.imp edge.eraseFwd fun erased => edge.erased ▸ erased
  | aim fwdIdx start size hc state =>
    cases hd
    have away : ∀ x : Cxt, x.fwUpgradeState = .getTrialInfo → ¬x.aimed := by
      intro x eq aimed
      unfold Cxt.aimed at aimed
      rw [eq] at aimed
      rcases aimed with aimed | aimed <;> cases aimed
    exact ⟨_, [], hc, (List.append_nil h).symm, .away (away _ state) (by rw [state]; rfl) rfl⟩
  | select hc state selected q other =>
    cases hd
    exact ⟨_, _, hc, rfl, .select (by rw [state]; rfl) rfl selected rfl⟩
  | erased hc state lt possible ran =>
    cases hd
    exact ⟨_, _, hc, rfl, .erase state rfl rfl rfl⟩
  | notErased hc state lt bad possible ran =>
    cases hc.symm.trans (ran.cxt.symm.trans hd)
    refine ⟨_, _, hc, rfl, .on rfl id rfl (by simp) fun _ w o mem => ?_⟩
    simp only [List.mem_singleton, Event.op.injEq] at mem
    exact bad mem.2.2.symm
  | bulk hc state which found touches =>
    cases hc.symm.trans (touches.cxt.symm.trans hd)
    exact ⟨_, _, hc, rfl, touches.choosing (FwState.bulk_erased state)⟩
  | hide hc state first fwd hidden entered =>
    have touches := entered.touches
    cases hc.symm.trans (touches.cxt.symm.trans hd)
    exact ⟨_, _, hc, rfl, touches.choosing (by rw [state]; rfl)⟩
  | field hc state first lt header possible ran =>
    cases hc.symm.trans (ran.cxt.symm.trans hd)
    exact ⟨_, _, hc, rfl, .behind rfl rfl state (by simp)⟩
  | accept hc erased accepts =>
    cases hd
    have next := accepts.next
    refine ⟨_, _, hc, rfl, .on rfl (fun _ => .inr erased) ?_ (by simp) (by simp)⟩
    rw [erased]
    split at next
    · rw [next]
      rfl
    · rcases next with next | next <;>
      · rw [next]
        rfl
  | emptyFs1 hs hc state loose first empty fwd id entered =>
    cases hd
    exact ⟨_, _, hc, rfl, .behind rfl rfl (by rw [state]; rfl) (by simp)⟩
  | noEntry hc state fwd bad entered =>
    have touches := entered.touches
    cases hc.symm.trans (touches.cxt.symm.trans hd)
    exact ⟨_, _, hc, rfl, touches.choosing state⟩
  | @place _ t u _ l _ _ _ _ _ _ hs hc current count len placed entered first handle reset =>
    cases hd
    refine ⟨_, _, hc, List.append_assoc .., .behind rfl rfl (by rw [current.state]; rfl) ?_⟩
    intro f a n mem
    have erase : .selected f a n ∉ l := by
      split at first
      · rw [first.1]
        exact List.not_mem_nil
      · exact first.touches.unselected f a n
    simp only [List.mem_append, List.mem_cons, List.not_mem_nil, or_false, reduceCtorEq,
      false_or] at mem
    exact erase mem
  | chunk bufOffset hc current part ne fit ahead write next =>
    cases hd
    have touches := chunk_access fit ahead write next
    refine ⟨_, _, hc, by simp only [List.append_assoc], .behind rfl rfl ?_ touches.unselected⟩
    rw [current.state]
    rfl
  | spoil bufOffset hc current part fit ahead write =>
    cases hd
    have touches := spoil_access fit ahead write
    refine ⟨_, _, hc, List.append_assoc .., .behind rfl rfl ?_ touches.unselected⟩
    rw [current.state]
    rfl
  | complete hs hc current part pos full notes q hash =>
    cases hd
    refine ⟨_, _, hc, List.append_assoc .., .behind rfl rfl (by rw [current.state]; rfl) ?_⟩
    intro f a n mem
    rcases List.mem_append.mp mem with mem | mem
    · obtain ⟨note, eq⟩ := notes _ mem
      cases eq
    · simp at mem
  | giveUp hs hc state events q =>
    cases hd
    refine ⟨_, _, hc, rfl, .behind rfl rfl (by rw [state]; rfl) ?_⟩
    intro f a n mem
    rcases events _ mem with ⟨note, eq⟩ | ⟨i, b, eq⟩ <;> cases eq
  | dupPlace hs hc state loose imageHdr hdr flag special fwd id start size entered handle =>
    cases hd
    exact ⟨_, _, hc, rfl, .behind rfl rfl (by rw [state]; rfl) (by simp)⟩
  | dupWork hc state part imageHdr hdr touches =>
    cases hc.symm.trans (touches.cxt.symm.trans hd)
    exact ⟨_, _, hc, rfl, touches.choosing (by rw [state]; rfl)⟩
  | validate hc state lt possible ran | fde hc state possible ran =>
    cases hc.symm.trans (ran.cxt.symm.trans hd)
    exact ⟨_, _, hc, rfl, .behind rfl rfl (by rw [state]; rfl) (by simp)⟩

end Choosing

/-- A move that leaves no session behind neither selects a FWD nor does anything to the
devices. -/
theorem Move.closed {retry : Bool} (m : Move e retry (s, h) (t, h')) (hd : t.cxt = none) :
    ∃ k, h' = h ++ k ∧ (∀ w o r, .op w o r ∉ k) ∧ ∀ f a n, .selected f a n ∉ k := by
  have not : ∀ {u : St} {c : Cxt} {P : Prop}, u.cxt = some c → t.cxt = u.cxt → P := by
    intro u c P hc same
    cases hc.symm.trans (same.symm.trans hd)
  cases m with
  | quiet | close => exact ⟨[], (List.append_nil h).symm, by simp, by simp⟩
  | note | reset => exact ⟨_, rfl, by simp, by simp⟩
  | headerHash bytes equal hc first => exact not hc rfl
  | notErased hc state lt bad possible ran | field hc state first lt header possible ran
  | validate hc state lt possible ran | fde hc state possible ran => exact not hc ran.cxt
  | bulk hc state which found touches | dupWork hc state part imageHdr hdr touches =>
    exact not hc touches.cxt
  | hide hc state first fwd hidden entered | noEntry hc state fwd bad entered =>
    exact not hc entered.touches.cxt
  | _ => cases hd

end Qapp.Fw
