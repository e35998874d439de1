import Qapp.Ring.Service

/-!
# What the host ring service relies on

With a good control block no function of the service leaves the arrays of `MAX_RINGS`
elements, uses an object that has not been created or divides by zero.
-/

namespace Qapp.RingHost
open Script (perform Pool Moment)

/-! ## What a thread has learnt -/

/-- The ring that has been checked, the number of rings and the counts that were read. -/
structure Known where
  ring : Option Nat
  num : Option Nat
  txCount : Option Nat
  rxCount : Option Nat

def Known.nothing : Known := ⟨none, none, none, none⟩

def Known.note (k : Known) (f : Field) (val : Nat) : Known :=
  match f with
  | .txDescCount => { k with txCount := some val }
  | .rxDescCount => { k with rxCount := some val }
  | _ => k

/-- A value that may become a cached index. -/
def Known.MayStore (k : Known) (f : Field) (val : Nat) : Prop :=
  f = .txRdIdx ∨ (f = .txWrIdx ∧ ∃ d, k.txCount = some d ∧ val < d) ∨
    (f = .rxRdIdx ∧ ∃ d, k.rxCount = some d ∧ val < d)

/-- An element that is there. -/
def Known.Reaches (k : Known) (i : Nat) : Prop := k.ring = some i ∨ ∃ n, k.num = some n ∧ i < n

inductive Mode
  /-- No call has found the service initialized. -/
  | outside
  | inside (k : Known)
  /-- In `ring_service_host_init`, with the saved block and the objects made so far. -/
  | booting (block : Option CtrlBlock) (made : List Obj)
  /-- After an answer that cannot be. -/
  | impossible

open Classical in
/-- What a thread may do with what it knows. -/
noncomputable def Mode.step : Mode → (op : Op) → op.Ans → Option Mode
  | .impossible, _, _ => some .impossible
  | .booting block made, op, x => match op, x with
    | .initialized, b => some (if b then .impossible else .booting block made)
    | .saveConfig _ ctrl, _ => some (.booting (some ctrl) made)
    | .create obj _, r =>
      if ∃ c, block = some c ∧ obj.ring < c.numRings then
        match r with
        | .ok _ => some (.booting block (obj :: made))
        | .error _ => some (.booting block made)
      else none
    | .access i, _ | .workInit i, _ =>
      if ∃ c, block = some c ∧ i < c.numRings then some (.booting block made) else none
    | .workQueueInit, _ | .readBlock _, _ => some (.booting block made)
    | .setInitialized, _ =>
      match block with
      | some c =>
        if ∀ obj : Obj, obj.ring < c.numRings → obj ∈ made then
          some (.inside { Known.nothing with num := some c.numRings })
        else none
      | none => none
    | _, _ => none
  | .outside, op, x => match op, x with
    | .initialized, b => some (if b then .inside .nothing else .outside)
    | _, _ => none
  | .inside k, op, x => match op, x with
    | .initialized, b => some (if b then .inside .nothing else .impossible)
    | .numRings, n => some (.inside { k with num := some n })
    | .ctrlBlockAddr, _ | .callback, _ | .readIdx _, _ | .readDesc _, _ | .readData _ _, _
    | .write _ _, _ | .interrupt, _ => some (.inside k)
    | .cached f i, v =>
      if f = .ringStatus then
        if i < maxRings then
          some (.inside (if v = statusValid then { Known.nothing with ring := some i } else k))
        else none
      else if k.ring = some i then
        some (if v = 0 ∧ (f = .txDescCount ∨ f = .rxDescCount) then .impossible
          else .inside (k.note f v))
      else none
    | .setCached f i v, _ =>
      if k.ring = some i ∧ k.MayStore f v then some (.inside k) else none
    | .modulo d, _ =>
      if k.txCount = some d ∨ k.rxCount = some d then some (.inside k) else none
    | .use obj _, _ => if k.Reaches obj.ring then some (.inside k) else none
    | .access i, _ | .workSubmit i, _ => if k.Reaches i then some (.inside k) else none
    | _, _ => none

/-! ## The functions of the API -/

section Api
variable {α β : Type} {r : Nat}

/-- The ring has been checked. -/
def Checked (r : Nat) (n : Mode) : Prop :=
  n = .impossible ∨ ∃ k, n = .inside k ∧ k.ring = some r

/-- The script is fine once the ring has been checked. -/
def Holds (r : Nat) (p : Host α) : Prop :=
  ∀ n, Checked r n → p.Follows Mode.step (fun _ => Checked r) n

theorem impossible_follows (p : Host α) {final : α → Mode → Prop}
    (ends : ∀ a, final a .impossible) : p.Follows Mode.step final .impossible :=
  .absorbed (fun _ _ => rfl) ends p

theorem Holds.ret (a : α) : Holds r (pure a : Host α) := fun _ h => h

theorem Holds.bind {p : Host α} {f : α → Host β} (h : Holds r p) (hf : ∀ a, Holds r (f a)) :
    Holds r (p >>= f) := fun n hn => (h n hn).bind fun a n' hn' => hf a n' hn'

theorem Holds.of_inside {p : Host α}
    (h : ∀ k, k.ring = some r → p.Follows Mode.step (fun _ => Checked r) (.inside k)) :
    Holds r p := by
  rintro n (rfl | ⟨k, rfl, hk⟩)
  · exact impossible_follows p fun _ => .inl rfl
  · exact h k hk

/-- A call that is always allowed and teaches nothing. -/
theorem Holds.call {op : Op} (h : ∀ k : Known, k.ring = some r → ∀ x,
    ∃ k', Mode.step (.inside k) op x = some (.inside k') ∧ k'.ring = some r) :
    Holds r (call op) := by
  apply Holds.of_inside
  intro k hk x
  obtain ⟨k', allowed, hk'⟩ := h k hk x
  exact ⟨_, allowed, .inr ⟨k', rfl, hk'⟩⟩

theorem note_ring (k : Known) (f : Field) (val : Nat) : (k.note f val).ring = k.ring := by
  cases f <;> rfl

theorem cached_holds {f : Field} (h : f ≠ .ringStatus) : Holds r (call (.cached f r)) := by
  apply Holds.of_inside
  intro k hk v
  refine ⟨if v = 0 ∧ (f = .txDescCount ∨ f = .rxDescCount) then .impossible
    else .inside (k.note f v), (if_neg h).trans (if_pos hk), ?_⟩
  split
  · exact .inl rfl
  · exact .inr ⟨_, rfl, (note_ring k f v).trans hk⟩

theorem use_holds (obj : Obj) {c : SyncCall} (h : obj.ring = r) : Holds r (call (.use obj c)) := by
  apply Holds.call
  intro k hk _
  have : k.Reaches obj.ring := .inl (h ▸ hk)
  exact ⟨k, if_pos this, hk⟩

theorem access_holds : Holds r (call (.access r)) := by
  apply Holds.call
  intro k hk _
  have : k.Reaches r := .inl hk
  exact ⟨k, if_pos this, hk⟩

theorem storeRdIdx_holds {v : Nat} : Holds r (call (.setCached .txRdIdx r v)) := by
  apply Holds.call
  intro k hk _
  have : k.MayStore .txRdIdx v := .inl rfl
  exact ⟨k, if_pos ⟨hk, this⟩, hk⟩

/-- Calls that reach nothing of the service's. -/
theorem remote_holds {op : Op} (h : op = .ctrlBlockAddr ∨ op = .callback ∨ (∃ a, op = .readIdx a) ∨
    (∃ a, op = .readDesc a) ∨ (∃ a l, op = .readData a l) ∨ (∃ a b, op = .write a b) ∨
    op = .interrupt) : Holds r (call op) := by
  apply Holds.call
  intro k hk x
  obtain rfl | rfl | ⟨a, rfl⟩ | ⟨a, rfl⟩ | ⟨a, l, rfl⟩ | ⟨a, b, rfl⟩ | rfl := h <;>
    exact ⟨k, rfl, hk⟩

theorem idxAddr_holds (f : Field) (i : Nat) : Holds r (idxAddr f i) :=
  (remote_holds (.inl rfl)).bind fun _ => .ret _

theorem txSpace_holds (wrIdx rdIdx : Nat) : Holds r (txSpace r wrIdx rdIdx) := by
  unfold txSpace
  split
  · exact .ret _
  · exact (cached_holds (by decide)).bind fun _ => .ret _

theorem rxData_holds (wrIdx rdIdx : Nat) : Holds r (rxData r wrIdx rdIdx) := by
  unfold rxData
  split
  · exact .ret _
  · exact (cached_holds (by decide)).bind fun _ => .ret _

theorem giveUp_holds (obj : Obj) (h : obj.ring = r) (err : Err) :
    Holds r (giveUp obj err : Host (Except Err α)) :=
  (use_holds obj h).bind fun _ => .ret _

/-- The next index is below the count, which is not zero. -/
theorem advance_holds {count idx : Field} (old : Nat)
    (pair : count = .txDescCount ∧ idx = .txWrIdx ∨ count = .rxDescCount ∧ idx = .rxRdIdx) :
    Holds r (advance count idx r old) := by
  apply Holds.of_inside
  intro k hk d
  have other : count ≠ .ringStatus := by
    obtain ⟨rfl, _⟩ | ⟨rfl, _⟩ := pair <;> decide
  have counts : count = .txDescCount ∨ count = .rxDescCount := pair.imp And.left And.left
  by_cases zero : d = 0
  · exact ⟨.impossible, (if_neg other).trans <| (if_pos hk).trans <|
      congrArg some (if_pos ⟨zero, counts⟩), impossible_follows _ fun _ => .inl rfl⟩
  · have next : (old + 1) % 2 ^ 32 % d < d := Nat.mod_lt _ (Nat.pos_of_ne_zero zero)
    have ring : (k.note count d).ring = some r := (note_ring k count d).trans hk
    have noted : (k.note count d).txCount = some d ∨ (k.note count d).rxCount = some d := by
      obtain ⟨rfl, _⟩ | ⟨rfl, _⟩ := pair
      · exact .inl rfl
      · exact .inr rfl
    have may : (k.note count d).MayStore idx ((old + 1) % 2 ^ 32 % d) := by
      obtain ⟨rfl, rfl⟩ | ⟨rfl, rfl⟩ := pair
      · exact .inr (.inl ⟨rfl, d, rfl, next⟩)
      · exact .inr (.inr ⟨rfl, d, rfl, next⟩)
    exact ⟨.inside (k.note count d), (if_neg other).trans <| (if_pos hk).trans <|
      congrArg some (if_neg fun h => zero h.1), fun _ => ⟨.inside (k.note count d), if_pos noted,
        fun _ => ⟨.inside (k.note count d), if_pos ⟨ring, may⟩, .inr ⟨_, rfl, ring⟩⟩⟩⟩

theorem checkRing_follows (m : Mode) :
    (checkRing r).Follows Mode.step (fun res n => ∀ u, res = .ok u → Checked r n) m := by
  have rest : ∀ n, n = .impossible ∨ n = .inside .nothing →
      (do
        if r ≥ maxRings then pure (.error .inval)
        else if (← call (.cached .ringStatus r)) ≠ statusValid then pure (.error .inval)
        else pure (.ok ()) : Host (Except Err Unit)).Follows Mode.step
          (fun res n => ∀ u, res = .ok u → Checked r n) n := by
    rintro n (rfl | rfl)
    · exact impossible_follows _ fun _ _ _ => .inl rfl
    · split
      · exact nofun
      next small =>
        intro v
        refine ⟨_, if_pos (Nat.lt_of_not_le small), ?_⟩
        dsimp only [bind, Script.bind]
        by_cases valid : v = statusValid
        · rw [if_pos valid, if_neg (not_not_intro valid)]
          exact fun _ _ => .inr ⟨_, rfl, rfl⟩
        · rw [if_pos valid]
          exact nofun
  cases m with
  | impossible => exact impossible_follows _ fun _ _ _ => .inl rfl
  | outside =>
    rintro (_ | _)
    · exact ⟨.outside, rfl, nofun⟩
    · exact ⟨.inside .nothing, rfl, rest _ (.inr rfl)⟩
  | inside k =>
    rintro (_ | _)
    · exact ⟨.impossible, rfl, nofun⟩
    · exact ⟨.inside .nothing, rfl, rest _ (.inr rfl)⟩
  | booting block made =>
    rintro (_ | _)
    · exact ⟨.booting block made, rfl, nofun⟩
    · exact ⟨.impossible, rfl, rest _ (.inl rfl)⟩

/-- A function that checks its ring first. -/
theorem after_check {f : Except Err Unit → Host α} {m : Mode} (refused : ∀ err, ∃ a, f (.error err) = pure a)
    (rest : Holds r (f (.ok ()))) : (checkRing r >>= f).Follows Mode.step (fun _ _ => True) m := by
  apply (checkRing_follows m).bind
  rintro (err | u) n checked
  · obtain ⟨a, ha⟩ := refused err
    rw [ha]
    trivial
  · exact (rest n (checked u rfl)).mono fun _ _ _ => trivial

theorem write_holds (addr : Nat) (bytes : List Nat) : Holds r (call (.write addr bytes)) :=
  remote_holds (.inr (.inr (.inr (.inr (.inr (.inl ⟨addr, bytes, rfl⟩))))))

theorem readIdx_holds (addr : Nat) : Holds r (call (.readIdx addr)) :=
  remote_holds (.inr (.inr (.inl ⟨addr, rfl⟩)))

theorem ringGetTxAvailable_follows (m : Mode) :
    (ringGetTxAvailable r).Follows Mode.step (fun _ _ => True) m := by
  refine after_check (fun err => ⟨.error err, rfl⟩) ?_
  apply (use_holds (.txLock r) rfl).bind
  rintro (err | _)
  · exact .ret _
  · apply (idxAddr_holds .txRdIdx r).bind
    intro addr
    apply (readIdx_holds addr).bind
    rintro (err | rdIdx)
    · exact (use_holds (.txLock r) rfl).bind fun _ => .ret _
    · apply (cached_holds (by decide)).bind
      intro wrIdx
      apply (cached_holds (by decide)).bind
      intro count
      apply (use_holds (.txLock r) rfl).bind
      intro _
      split <;> exact .ret _

theorem ringGetRxAvailable_follows (m : Mode) :
    (ringGetRxAvailable r).Follows Mode.step (fun _ _ => True) m := by
  refine after_check (fun err => ⟨.error err, rfl⟩) ?_
  apply (use_holds (.rxLock r) rfl).bind
  rintro (err | _)
  · exact .ret _
  · apply (idxAddr_holds .rxWrIdx r).bind
    intro addr
    apply (readIdx_holds addr).bind
    rintro (err | wrIdx)
    · exact (use_holds (.rxLock r) rfl).bind fun _ => .ret _
    · apply (cached_holds (by decide)).bind
      intro rdIdx
      apply (cached_holds (by decide)).bind
      intro count
      apply (use_holds (.rxLock r) rfl).bind
      intro _
      split <;> exact .ret _

theorem sendAt_holds (data : List UInt8) (wrIdx : Nat) : Holds r (sendAt r data wrIdx) := by
  apply (cached_holds (by decide)).bind
  intro base
  apply (cached_holds (by decide)).bind
  intro size
  apply (write_holds _ _).bind
  rintro (err | _)
  · exact giveUp_holds (.txLock r) rfl err
  · apply (cached_holds (by decide)).bind
    intro descBase
    apply (write_holds _ _).bind
    rintro (err | _)
    · exact giveUp_holds (.txLock r) rfl err
    · apply (advance_holds wrIdx (.inl ⟨rfl, rfl⟩)).bind
      intro next
      apply (idxAddr_holds .txWrIdx r).bind
      intro addr
      apply (write_holds _ _).bind
      rintro (err | _)
      · exact giveUp_holds (.txLock r) rfl err
      · apply access_holds.bind
        intro _
        apply (use_holds (.txLock r) rfl).bind
        intro _
        exact (remote_holds (.inr (.inr (.inr (.inr (.inr (.inr rfl))))))).bind fun _ => .ret _

theorem ringSend_follows (data : Option (List UInt8)) (m : Mode) :
    (ringSend r data).Follows Mode.step (fun _ _ => True) m := by
  refine after_check (fun err => ⟨.error err, rfl⟩) ?_
  cases data with
  | none => exact .ret _
  | some data =>
    dsimp only
    split
    · exact .ret _
    · apply (cached_holds (by decide)).bind
      intro size
      split
      · exact .ret _
      · apply (use_holds (.txLock r) rfl).bind
        rintro (err | _)
        · exact .ret _
        · apply (cached_holds (by decide)).bind
          intro rdIdx
          apply (cached_holds (by decide)).bind
          intro wrIdx
          apply (txSpace_holds wrIdx rdIdx).bind
          intro space
          split
          · apply (idxAddr_holds .txRdIdx r).bind
            intro addr
            apply (readIdx_holds addr).bind
            rintro (err | rdIdx)
            · exact giveUp_holds (.txLock r) rfl err
            · apply storeRdIdx_holds.bind
              intro _
              apply (txSpace_holds wrIdx rdIdx).bind
              intro space
              split
              · exact giveUp_holds (.txLock r) rfl .again
              · exact sendAt_holds data wrIdx
          · exact sendAt_holds data wrIdx

theorem recvAt_holds (maxLen rdIdx : Nat) : Holds r (recvAt r maxLen rdIdx) := by
  apply (cached_holds (by decide)).bind
  intro descBase
  apply (remote_holds (.inr (.inr (.inr (.inl ⟨_, rfl⟩))))).bind
  rintro (err | desc)
  · exact giveUp_holds (.rxLock r) rfl err
  · dsimp only
    split
    · exact access_holds.bind fun _ => giveUp_holds (.rxLock r) rfl .inval
    · split
      · exact access_holds.bind fun _ => giveUp_holds (.rxLock r) rfl .msgSize
      · apply (remote_holds (.inr (.inr (.inr (.inr (.inl ⟨_, _, rfl⟩)))))).bind
        rintro (err | _)
        · exact giveUp_holds (.rxLock r) rfl err
        · apply (write_holds _ _).bind
          rintro (err | _)
          · exact giveUp_holds (.rxLock r) rfl err
          · apply (advance_holds rdIdx (.inr ⟨rfl, rfl⟩)).bind
            intro next
            apply (idxAddr_holds .rxRdIdx r).bind
            intro addr
            apply (write_holds _ _).bind
            rintro (err | _)
            · exact giveUp_holds (.rxLock r) rfl err
            · exact access_holds.bind fun _ => (use_holds (.rxLock r) rfl).bind fun _ => .ret _

theorem ringRecv_follows (data : Option Unit) (maxLen : Nat) (noWait : Bool) (m : Mode) :
    (ringRecv r data maxLen noWait).Follows Mode.step (fun _ _ => True) m := by
  refine after_check (fun err => ⟨.error err, rfl⟩) ?_
  dsimp only
  split
  · exact .ret _
  · apply (use_holds (.rxLock r) rfl).bind
    rintro (err | _)
    · exact .ret _
    · apply (idxAddr_holds .rxWrIdx r).bind
      intro wrAddr
      apply (readIdx_holds wrAddr).bind
      rintro (err | wrIdx)
      · exact giveUp_holds (.rxLock r) rfl err
      · apply (cached_holds (by decide)).bind
        intro rdIdx
        apply (rxData_holds wrIdx rdIdx).bind
        intro filled
        split
        · apply (use_holds (.rxLock r) rfl).bind
          intro _
          split
          · exact .ret _
          · apply (use_holds (.rxSem r) rfl).bind
            rintro (err | _)
            · exact .ret _
            · apply (use_holds (.rxLock r) rfl).bind
              rintro (err | _)
              · exact .ret _
              · apply (readIdx_holds wrAddr).bind
                rintro (err | _)
                · exact giveUp_holds (.rxLock r) rfl err
                · exact (cached_holds (by decide)).bind fun rdIdx => recvAt_holds maxLen rdIdx
        · exact recvAt_holds maxLen rdIdx

/-- What holds at ring `i` of a loop holds behind its last ring if no round fails. -/
theorem eachRing_follows (Inv : Nat → Mode → Prop) {body : Nat → Host (Except Err Unit)}
    {left i : Nat} {m : Mode} (h : Inv i m)
    (each : ∀ j, j < i + left → ∀ m, Inv j m →
      (body j).Follows Mode.step (fun res n => ∀ u, res = .ok u → Inv (j + 1) n) m) :
    (eachRing body left i).Follows Mode.step (fun res n => ∀ u, res = .ok u → Inv (i + left) n) m := by
  induction left generalizing i m with
  | zero => exact fun _ _ => h
  | succ left ih =>
    apply (each i (by omega) m h).bind
    rintro (err | u) n hn
    · exact nofun
    · rw [Nat.add_comm left, ← Nat.add_assoc]
      exact ih (hn u rfl) fun j hj => each j (by omega)

/-- A thread that knows the number of rings. -/
def Counted (n : Nat) (m : Mode) : Prop :=
  m = .impossible ∨ ∃ k, m = .inside k ∧ k.num = some n

theorem wakeRing_follows {n i : Nat} (h : i < n) {m : Mode} (counted : Counted n m) :
    (wakeRing i).Follows Mode.step (fun _ => Counted n) m := by
  obtain rfl | ⟨k, rfl, hk⟩ := counted
  · exact impossible_follows _ fun _ => .inl rfl
  · have reaches : k.Reaches i := .inr ⟨n, hk, h⟩
    refine fun _ => ⟨.inside k, if_pos reaches, ?_⟩
    rintro (_ | _)
    · exact ⟨.inside k, rfl, .inr ⟨k, rfl, hk⟩⟩
    · exact ⟨.inside k, rfl, fun _ =>
        ⟨.inside k, if_pos reaches, .inr ⟨k, rfl, hk⟩⟩⟩

theorem ringRxHandler_follows (m : Mode) :
    ringRxHandler.Follows Mode.step (fun _ _ => True) m := by
  have rest : ∀ n, n = .impossible ∨ n = .inside .nothing →
      (call .numRings >>= fun n => eachRing wakeRing n 0).Follows Mode.step (fun _ _ => True) n := by
    rintro n (rfl | rfl)
    · exact impossible_follows _ fun _ => trivial
    · intro n
      refine ⟨.inside { Known.nothing with num := some n }, rfl, ?_⟩
      have counted : Counted n (.inside { Known.nothing with num := some n }) := .inr ⟨_, rfl, rfl⟩
      apply (eachRing_follows (fun _ => Counted n) counted ?_).mono
      · exact fun _ _ _ => trivial
      · intro j hj m' hm
        apply (wakeRing_follows (by omega) hm).mono
        exact fun _ _ h _ _ => h
  cases m with
  | impossible => exact impossible_follows _ fun _ => trivial
  | outside =>
    rintro (_ | _)
    · exact ⟨.outside, rfl, trivial⟩
    · exact ⟨.inside .nothing, rfl, rest _ (.inr rfl)⟩
  | inside k =>
    rintro (_ | _)
    · exact ⟨.impossible, rfl, trivial⟩
    · exact ⟨.inside .nothing, rfl, rest _ (.inr rfl)⟩
  | booting block made =>
    rintro (_ | _)
    · exact ⟨.booting block made, rfl, trivial⟩
    · exact ⟨.impossible, rfl, rest _ (.inl rfl)⟩

theorem api_follows (c : ApiCall) (m : Mode) : (api c).Follows Mode.step (fun _ _ => True) m := by
  cases c with
  | getTxAvailable ringId => exact ringGetTxAvailable_follows m
  | getRxAvailable ringId => exact ringGetRxAvailable_follows m
  | send ringId data => exact ringSend_follows data m
  | recv ringId data maxLen noWait => exact ringRecv_follows data maxLen noWait m
  | rxHandler => exact ringRxHandler_follows m

/-! ## Initialization -/

/-- Everything the first `j` rings need has been made. -/
def Made (ctrl : CtrlBlock) (j : Nat) (m : Mode) : Prop :=
  ∃ made, m = .booting (some ctrl) made ∧ ∀ obj : Obj, obj.ring < j → obj ∈ made

theorem booting_create {ctrl : CtrlBlock} (obj : Obj) (h : obj.ring < ctrl.numRings)
    (made : List Obj) (limit : Nat) (u : Unit) :
    Mode.step (.booting (some ctrl) made) (.create obj limit) (.ok u) =
      some (.booting (some ctrl) (obj :: made)) :=
  if_pos ⟨ctrl, rfl, h⟩

theorem booting_createFail {ctrl : CtrlBlock} (obj : Obj) (h : obj.ring < ctrl.numRings)
    (made : List Obj) (limit : Nat) (err : Err) :
    Mode.step (.booting (some ctrl) made) (.create obj limit) (.error err) =
      some (.booting (some ctrl) made) :=
  if_pos ⟨ctrl, rfl, h⟩

theorem booting_access {ctrl : CtrlBlock} {i : Nat} (h : i < ctrl.numRings) (made : List Obj)
    (u : Unit) : Mode.step (.booting (some ctrl) made) (.access i) u =
      some (.booting (some ctrl) made) :=
  if_pos ⟨ctrl, rfl, h⟩

theorem initSync_follows {ctrl : CtrlBlock} {i : Nat} (h : i < ctrl.numRings) {m : Mode}
    (before : Made ctrl i m) :
    (initSync ctrl i).Follows Mode.step (fun res n => ∀ u, res = .ok u → Made ctrl (i + 1) n) m := by
  obtain ⟨made, rfl, all⟩ := before
  rintro (_ | _)
  · exact ⟨_, booting_createFail (.txLock i) h _ _ _, nofun⟩
  · refine ⟨_, booting_create (.txLock i) h _ _ _, ?_⟩
    rintro (_ | _)
    · exact ⟨_, booting_createFail (.rxLock i) h _ _ _, nofun⟩
    · refine ⟨_, booting_create (.rxLock i) h _ _ _, fun _ => ⟨_, booting_access h _ _, ?_⟩⟩
      rintro (_ | _)
      · exact ⟨_, booting_createFail (.txSem i) h _ _ _, nofun⟩
      · refine ⟨_, booting_create (.txSem i) h _ _ _, ?_⟩
        rintro (_ | _)
        · exact ⟨_, booting_createFail (.rxSem i) h _ _ _, nofun⟩
        · refine ⟨_, booting_create (.rxSem i) h _ _ _, fun _ =>
            ⟨_, booting_access h _ _, fun _ _ => ?_⟩⟩
          refine ⟨_, rfl, fun obj hobj => ?_⟩
          by_cases earlier : obj.ring < i
          · simp [all obj earlier]
          · obtain rfl : obj.ring = i := by omega
            cases obj <;> simp [Obj.ring]

theorem initRings_follows (ctrl : CtrlBlock) :
    (initRings ctrl).Follows Mode.step (fun _ _ => True) (.booting (some ctrl) []) := by
  have none : Made ctrl 0 (.booting (some ctrl) []) := ⟨[], rfl, fun _ h => absurd h (by omega)⟩
  apply (eachRing_follows (Made ctrl) none fun j hj m hm => initSync_follows (by omega) hm).bind
  rintro (err | u) n after
  · trivial
  · obtain ⟨made, rfl, all⟩ := after u rfl
    rw [Nat.zero_add] at all
    rintro (err | _)
    · exact ⟨.booting (some ctrl) made, rfl, trivial⟩
    · refine ⟨.booting (some ctrl) made, rfl, ?_⟩
      have works : ∀ j, j < 0 + ctrl.numRings → ∀ m, m = .booting (some ctrl) made →
          (initWork j).Follows Mode.step
            (fun res n => ∀ u, res = .ok u → n = .booting (some ctrl) made) m := by
        rintro j hj _ rfl
        rw [Nat.zero_add] at hj
        exact fun _ => ⟨_, booting_access hj made _, fun _ =>
          ⟨.booting (some ctrl) made, if_pos ⟨ctrl, rfl, hj⟩, fun _ _ => rfl⟩⟩
      apply (eachRing_follows (fun _ m => m = .booting (some ctrl) made) rfl works).bind
      rintro (err | u) n same
      · trivial
      · obtain rfl := same u rfl
        intro _
        refine ⟨.inside { Known.nothing with num := some ctrl.numRings }, if_pos all, ?_⟩
        refine (eachRing_follows
          (fun _ m => m = .inside { Known.nothing with num := some ctrl.numRings }) rfl ?_).bind
          fun _ _ _ => trivial
        rintro j hj _ rfl
        rw [Nat.zero_add] at hj
        have reaches : Known.Reaches { Known.nothing with num := some ctrl.numRings } j :=
          .inr ⟨_, rfl, hj⟩
        exact fun _ => ⟨_, if_pos reaches, fun _ _ => rfl⟩

theorem ringServiceHostInit_follows (addr : Nat) (transport : Option Unit) :
    (ringServiceHostInit addr transport).Follows Mode.step (fun _ _ => True) (.booting none []) := by
  rintro (_ | _)
  · refine ⟨.booting none [], rfl, ?_⟩
    dsimp only [bind, Script.bind]
    rw [if_neg Bool.false_ne_true]
    split
    · trivial
    · rintro (err | ctrl)
      · exact ⟨.booting none [], rfl, trivial⟩
      · refine ⟨.booting none [], rfl, ?_⟩
        dsimp only [Script.bind]
        split
        · trivial
        · exact fun _ => ⟨.booting (some ctrl) [], rfl, initRings_follows ctrl⟩
  · exact ⟨.impossible, rfl, impossible_follows _ fun _ => trivial⟩

end Api

/-! ## What the threads know is so -/

section Invariant
variable {ι α : Type} [DecidableEq ι]

structure Known.IsTrue (k : Known) (s : Shared) : Prop where
  ring : ∀ r, k.ring = some r → r < maxRings ∧ s.cache .ringStatus r = statusValid
  num : ∀ n, k.num = some n → n = s.numRings
  txCount : ∀ d, k.txCount = some d → ∃ r, k.ring = some r ∧ d = s.cache .txDescCount r
  rxCount : ∀ d, k.rxCount = some d → ∃ r, k.ring = some r ∧ d = s.cache .rxDescCount r

/-- A mode thread `i` can be in. -/
def Mode.Fits (booter i : ι) (s : Shared) : Mode → Prop
  | .outside => True
  | .inside k => s.initialized = true ∧ k.IsTrue s
  | .booting block made => i = booter ∧ s.initialized = false ∧ (∀ obj ∈ made, obj ∈ s.made) ∧
      ∀ c, block = some c → s.numRings = c.numRings
  | .impossible => False

structure Fits (booter : ι) (mode : ι → Mode) (s : Shared) : Prop where
  good : Good s.numRings s.cache
  live : s.initialized = true → ∀ obj : Obj, obj.ring < s.numRings → obj ∈ s.made
  thread : ∀ i, (mode i).Fits booter i s

theorem Fits.update {booter : ι} {mode : ι → Mode} {s t : Shared} {i : ι} {n : Mode}
    (h : Fits booter mode s) (good : Good t.numRings t.cache)
    (live : t.initialized = true → ∀ obj : Obj, obj.ring < t.numRings → obj ∈ t.made)
    (mine : n.Fits booter i t)
    (others : ∀ j, j ≠ i → (mode j).Fits booter j s → (mode j).Fits booter j t) :
    Fits booter (Function.update mode i n) t := by
  refine ⟨good, live, fun j => ?_⟩
  by_cases same : j = i
  · subst same
    simpa using mine
  · rw [Function.update_of_ne same]
    exact others j same (h.thread j)

theorem Mode.step_outside {m n : Mode} {op : Op} {x : op.Ans} (h : m.step op x = some n)
    (outside : op.Outside) : n = m := by
  cases m with
  | impossible => exact (Option.some.inj h).symm
  | outside =>
    cases op with
    | initialized => cases outside
    | _ => cases h
  | inside k =>
    cases op with
    | callback | readIdx | readDesc | readData | write | interrupt => exact (Option.some.inj h).symm
    | access | modulo | use | workSubmit =>
      obtain ⟨_, same⟩ := Option.ite_none_right_eq_some.mp h
      exact (Option.some.inj same).symm
    | workQueueInit | workInit | readBlock => cases h
    | _ => cases outside
  | booting block made =>
    cases op with
    | workQueueInit | readBlock => exact (Option.some.inj h).symm
    | access | workInit =>
      obtain ⟨_, same⟩ := Option.ite_none_right_eq_some.mp h
      exact (Option.some.inj same).symm
    | callback | readIdx | readDesc | readData | write | interrupt | modulo | use | workSubmit =>
      cases h
    | _ => cases outside

/-- Nothing but cached indices changes. -/
theorem Known.IsTrue.change {k : Known} {s t : Shared} (h : k.IsTrue s)
    (num : t.numRings = s.numRings)
    (same : ∀ f, f = .ringStatus ∨ f = .txDescCount ∨ f = .rxDescCount → t.cache f = s.cache f) :
    k.IsTrue t := by
  refine ⟨?_, ?_, ?_, ?_⟩
  · rw [same _ (.inl rfl)]
    exact h.ring
  · rw [num]
    exact h.num
  · rw [same _ (.inr (.inl rfl))]
    exact h.txCount
  · rw [same _ (.inr (.inr rfl))]
    exact h.rxCount

theorem Known.nothing_isTrue (s : Shared) : Known.nothing.IsTrue s := by
  constructor <;> intro _ h <;> cases h

/-- A step that changes nothing but what its thread knows. -/
theorem Fits.learn {booter : ι} {mode : ι → Mode} {s : Shared} {i : ι} {n : Mode}
    (h : Fits booter mode s) (mine : n.Fits booter i s) :
    Fits booter (Function.update mode i n) s :=
  h.update h.good h.live mine fun _ _ same => same

omit [DecidableEq ι] in
theorem Mode.Fits.initialized {booter i : ι} {s : Shared} {m n : Mode} (h : m.Fits booter i s)
    (allowed : m.step .initialized s.initialized = some n) : n.Fits booter i s := by
  cases m with
  | impossible => exact h.elim
  | outside =>
    obtain rfl := Option.some.inj allowed
    split
    next live => exact ⟨live, Known.nothing_isTrue s⟩
    next => trivial
  | inside k =>
    obtain rfl := Option.some.inj allowed
    rw [if_pos h.1]
    exact ⟨h.1, Known.nothing_isTrue s⟩
  | booting block made =>
    obtain rfl := Option.some.inj allowed
    rw [if_neg (Bool.eq_false_iff.mp h.2.1)]
    exact h

omit [DecidableEq ι] in
theorem Mode.Fits.cached {booter i : ι} {s : Shared} {m n : Mode} {f : Field} {r : Nat}
    (good : Good s.numRings s.cache) (h : m.Fits booter i s)
    (allowed : m.step (.cached f r) (s.cache f r) = some n) : n.Fits booter i s := by
  cases m with
  | impossible => exact h.elim
  | outside | booting => cases allowed
  | inside k =>
    obtain ⟨live, known⟩ := h
    simp only [Mode.step] at allowed
    split at allowed
    next status =>
      subst status
      obtain ⟨small, same⟩ := Option.ite_none_right_eq_some.mp allowed
      obtain rfl := Option.some.inj same
      refine ⟨live, ?_⟩
      split
      next valid =>
        refine ⟨?_, nofun, nofun, nofun⟩
        rintro _ ⟨⟩
        exact ⟨small, valid⟩
      next => exact known
    next =>
      obtain ⟨ring, same⟩ := Option.ite_none_right_eq_some.mp allowed
      obtain rfl := Option.some.inj same
      obtain ⟨small, valid⟩ := known.ring r ring
      obtain ⟨_, tx, _, rx, _⟩ := good.valid r small valid
      split
      next zero =>
        -- the counts of a valid ring are not zero
        obtain ⟨zero, which⟩ := zero
        have zero : s.cache f r = 0 := zero
        obtain rfl | rfl := which <;> omega
      next =>
        refine ⟨live, ?_⟩
        cases f with
        | txDescCount =>
          refine ⟨known.ring, known.num, ?_, known.rxCount⟩
          rintro _ ⟨⟩
          exact ⟨r, ring, rfl⟩
        | rxDescCount =>
          refine ⟨known.ring, known.num, known.txCount, ?_⟩
          rintro _ ⟨⟩
          exact ⟨r, ring, rfl⟩
        | _ => exact known

/-- An index is replaced by one that is in bounds too. -/
theorem Good.store {n : Nat} {a : Field → Nat → Nat} {f : Field} {r v : Nat} (h : Good n a)
    (which : (f = .txRdIdx ∨ f = .txWrIdx) ∧ v < a .txDescCount r ∨
      f = .rxRdIdx ∧ v < a .rxDescCount r) :
    Good n (Function.update a f (Function.update (a f) r v)) := by
  refine ⟨h.rings, fun q small valid => ?_⟩
  obtain ⟨rfl | rfl, bound⟩ | ⟨rfl, bound⟩ := which
  all_goals
    have := h.valid q small (by simpa [Function.update] using valid)
    by_cases same : q = r
    · subst same
      simp [Function.update, this, bound]
    · simp [Function.update, this, same]

theorem Fits.step {booter : ι} {mode : ι → Mode} {m : Moment ι Op Op.Ans α Shared} {n : Mode}
    (act : Act m.before.state m.op m.answer m.after.state) (clear : Clear m)
    (h : Fits booter mode m.before.state)
    (allowed : (mode m.who).step m.op m.answer = some n) :
    Fits booter (Function.update mode m.who n) m.after.state := by
  obtain ⟨before, i, op, x, after⟩ := m
  obtain ⟨goodBlock, goodIndex⟩ := clear
  dsimp only at *
  generalize before.state = s at *
  generalize after.state = t at *
  have mine := h.thread i
  generalize hm : mode i = m at *
  cases act with
  | outside _ _ out =>
    obtain rfl := Mode.step_outside allowed out
    subst hm
    rw [Function.update_eq_self]
    exact h
  | initialized => exact h.learn (mine.initialized allowed)
  | numRings =>
    apply h.learn
    cases m with
    | impossible => exact mine.elim
    | outside | booting => cases allowed
    | inside k =>
      obtain rfl := Option.some.inj allowed
      refine ⟨mine.1, mine.2.ring, ?_, mine.2.txCount, mine.2.rxCount⟩
      rintro _ ⟨⟩
      rfl
  | ctrlBlockAddr =>
    apply h.learn
    cases m with
    | impossible => exact mine.elim
    | outside | booting => cases allowed
    | inside k =>
      obtain rfl := Option.some.inj allowed
      exact mine
  | cached f r => exact h.learn (mine.cached h.good allowed)
  | setCached f r v =>
    cases m with
    | impossible => exact mine.elim
    | outside | booting => cases allowed
    | inside k =>
      obtain ⟨⟨ring, may⟩, same⟩ := Option.ite_none_right_eq_some.mp allowed
      obtain rfl := Option.some.inj same
      obtain ⟨live, known⟩ := mine
      have which : (f = .txRdIdx ∨ f = .txWrIdx) ∧ v < s.cache .txDescCount r ∨
          f = .rxRdIdx ∧ v < s.cache .rxDescCount r := by
        obtain rfl | ⟨rfl, d, count, less⟩ | ⟨rfl, d, count, less⟩ := may
        · exact .inl ⟨.inl rfl, goodIndex r v rfl⟩
        · obtain ⟨q, ring', rfl⟩ := known.txCount d count
          obtain rfl := Option.some.inj (ring.symm.trans ring')
          exact .inl ⟨.inr rfl, less⟩
        · obtain ⟨q, ring', rfl⟩ := known.rxCount d count
          obtain rfl := Option.some.inj (ring.symm.trans ring')
          exact .inr ⟨rfl, less⟩
      have kept : ∀ g, g = .ringStatus ∨ g = .txDescCount ∨ g = .rxDescCount →
          Function.update s.cache f (Function.update (s.cache f) r v) g = s.cache g := by
        intro g hg
        apply Function.update_of_ne
        rintro rfl
        obtain ⟨rfl | rfl, _⟩ | ⟨rfl, _⟩ := which <;> simp at hg
      refine h.update (h.good.store which) h.live ?_ ?_
      · exact ⟨live, known.change rfl kept⟩
      · intro j other fits
        generalize mode j = mj at fits
        cases mj with
        | outside => trivial
        | impossible => exact fits.elim
        | inside k => exact ⟨fits.1, fits.2.change rfl kept⟩
        | booting => exact fits
  | saveConfig addr ctrl =>
    cases m with
    | impossible => exact mine.elim
    | outside | inside => cases allowed
    | booting block made =>
      obtain rfl := Option.some.inj allowed
      obtain ⟨boots, idle, made, _⟩ := mine
      apply h.update (goodBlock addr ctrl rfl)
      · intro live
        rw [idle] at live
        cases live
      · refine ⟨boots, idle, made, ?_⟩
        rintro _ ⟨⟩
        rfl
      · intro j other fits
        generalize mode j = mj at fits
        cases mj with
        | outside => trivial
        | impossible => exact fits.elim
        | inside =>
          have := fits.1
          rw [idle] at this
          cases this
        | booting => exact absurd (fits.1.trans boots.symm) other
  | setInitialized =>
    cases m with
    | impossible => exact mine.elim
    | outside | inside => cases allowed
    | booting block made =>
      obtain ⟨boots, idle, made, num⟩ := mine
      cases block with
      | none => cases allowed
      | some c =>
        obtain ⟨all, same⟩ := Option.ite_none_right_eq_some.mp allowed
        obtain rfl := Option.some.inj same
        have rings := num c rfl
        refine Fits.update (t := { s with initialized := true }) h h.good ?_ ?_ ?_
        · intro _ obj hobj
          exact made obj (all obj (by rwa [← rings]))
        · refine ⟨rfl, nofun, ?_, nofun, nofun⟩
          rintro _ ⟨⟩
          exact rings.symm
        · intro j other fits
          generalize mode j = mj at fits
          cases mj with
          | outside => trivial
          | impossible => exact fits.elim
          | inside =>
            have := fits.1
            rw [idle] at this
            cases this
          | booting => exact absurd (fits.1.trans boots.symm) other
  | create obj limit =>
    cases m with
    | impossible => exact mine.elim
    | outside | inside => cases allowed
    | booting block made =>
      obtain ⟨_, same⟩ := Option.ite_none_right_eq_some.mp allowed
      obtain rfl := Option.some.inj same
      obtain ⟨boots, idle, made, num⟩ := mine
      refine Fits.update (t := { s with made := obj :: s.made }) h h.good ?_ ?_ ?_
      · intro live o ho
        exact List.mem_cons_of_mem _ (h.live live o ho)
      · refine ⟨boots, idle, ?_, num⟩
        intro o ho
        obtain rfl | older := List.mem_cons.mp ho
        · exact List.mem_cons_self ..
        · exact List.mem_cons_of_mem _ (made o older)
      · intro j other fits
        generalize mode j = mj at fits
        cases mj with
        | outside => trivial
        | impossible => exact fits.elim
        | inside k => exact ⟨fits.1, fits.2.change rfl fun _ _ => rfl⟩
        | booting => exact absurd (fits.1.trans boots.symm) other
  | createFail obj limit err =>
    cases m with
    | impossible => exact mine.elim
    | outside | inside => cases allowed
    | booting block made =>
      obtain ⟨_, same⟩ := Option.ite_none_right_eq_some.mp allowed
      obtain rfl := Option.some.inj same
      exact h.learn mine

/-! ## Every moment is safe -/

omit [DecidableEq ι] in
theorem Known.IsTrue.ring_lt {k : Known} {s : Shared} (h : k.IsTrue s)
    (good : Good s.numRings s.cache) {r : Nat} (ring : k.ring = some r) : r < s.numRings := by
  obtain ⟨small, valid⟩ := h.ring r ring
  exact (good.valid r small valid).1

theorem Known.IsTrue.reach_lt {k : Known} {s : Shared} (h : k.IsTrue s)
    (good : Good s.numRings s.cache) {i : Nat} (reaches : k.Reaches i) : i < s.numRings := by
  obtain ring | ⟨n, num, less⟩ := reaches
  · exact h.ring_lt good ring
  · rwa [h.num n num] at less

omit [DecidableEq ι] in
/-- The index of an allowed access is that of a ring, or that of the array `ring_status`. -/
theorem Mode.Fits.index {booter i : ι} {s : Shared} {m n : Mode} {op : Op} {x : op.Ans} {r : Nat}
    (good : Good s.numRings s.cache) (h : m.Fits booter i s) (allowed : m.step op x = some n)
    (index : op.index? = some r) : r < maxRings := by
  have rings := good.rings
  cases m with
  | impossible => exact h.elim
  | outside =>
    cases op with
    | initialized => cases index
    | _ => cases allowed
  | booting block made =>
    cases op with
    | create | access | workInit =>
      obtain ⟨⟨c, rfl, less⟩, _⟩ := Option.ite_none_right_eq_some.mp allowed
      obtain rfl := Option.some.inj index
      have := h.2.2.2 c rfl
      omega
    | cached | setCached | use | workSubmit => cases allowed
    | _ => cases index
  | inside k =>
    obtain ⟨live, known⟩ := h
    cases op with
    | cached f q =>
      obtain rfl := Option.some.inj index
      simp only [Mode.step] at allowed
      split at allowed
      · exact (Option.ite_none_right_eq_some.mp allowed).1
      · exact (known.ring _ (Option.ite_none_right_eq_some.mp allowed).1).1
    | setCached f q v =>
      obtain rfl := Option.some.inj index
      exact (known.ring _ (Option.ite_none_right_eq_some.mp allowed).1.1).1
    | access | use | workSubmit =>
      obtain ⟨reaches, _⟩ := Option.ite_none_right_eq_some.mp allowed
      obtain rfl := Option.some.inj index
      exact Nat.lt_of_lt_of_le (known.reach_lt good reaches) rings
    | create | workInit => cases allowed
    | _ => cases index

theorem Fits.safe {booter : ι} {mode : ι → Mode} {m : Moment ι Op Op.Ans α Shared} {n : Mode}
    (h : Fits booter mode m.before.state)
    (after : Fits booter (Function.update mode m.who n) m.after.state)
    (allowed : (mode m.who).step m.op m.answer = some n) : Safe m := by
  obtain ⟨before, i, op, x, t⟩ := m
  dsimp only at *
  have mine := h.thread i
  generalize mode i = mi at *
  constructor
  · exact fun r index => mine.index h.good allowed index
  · rintro obj c rfl
    cases mi with
    | impossible => exact mine.elim
    | outside | booting => cases allowed
    | inside k =>
      obtain ⟨reaches, _⟩ := Option.ite_none_right_eq_some.mp allowed
      exact h.live mine.1 obj (mine.2.reach_lt h.good reaches)
  · rintro d rfl rfl
    cases mi with
    | impossible => exact mine.elim
    | outside | booting => cases allowed
    | inside k =>
      obtain ⟨counts, _⟩ := Option.ite_none_right_eq_some.mp allowed
      obtain count | count := counts
      · obtain ⟨r, ring, zero⟩ := mine.2.txCount 0 count
        obtain ⟨small, valid⟩ := mine.2.ring r ring
        have := (h.good.valid r small valid).2.1
        omega
      · obtain ⟨r, ring, zero⟩ := mine.2.rxCount 0 count
        obtain ⟨small, valid⟩ := mine.2.ring r ring
        have := (h.good.valid r small valid).2.2.2.1
        omega
  · exact fun r small valid => (after.good.valid r small valid).2

theorem start_fits (booter : ι) (addr : Nat) (transport : Option Unit)
    (program : ι → Script ApiCall ApiCall.Ans α) :
    (start booter addr transport program).Keeping Mode.step (fun _ _ => True) (Fits booter) := by
  refine ⟨fun i => if i = booter then .booting none [] else .outside, fun i => ?_, ?_, nofun, ?_⟩
  · have rest (m : Mode) : ((program i).expand api).Follows Mode.step (fun _ _ => True) m :=
      .expand trivial (fun c n _ => api_follows c n) (program i)
    dsimp only [start]
    split
    · exact (ringServiceHostInit_follows addr transport).bind fun _ n _ => rest n
    · exact rest .outside
  · exact ⟨Nat.zero_le _, nofun⟩
  · intro i
    split
    next same => exact ⟨same, rfl, nofun, nofun⟩
    next => trivial

/-- Whatever the threads call while and after one of them initializes the service: as long
as the remote side behaves, every moment is safe. -/
theorem service_safe (booter : ι) (addr : Nat) (transport : Option Unit)
    (program : ι → Script ApiCall ApiCall.Ans α) {moments : List (Moment ι Op Op.Ans α Shared)}
    (run : (start booter addr transport program).Run (fun _ => Act) moments)
    (clear : ∀ m ∈ moments, Clear m) : ∀ m ∈ moments, Safe m := by
  have keeps : ∀ m : Moment ι Op Op.Ans α Shared, m.Happens (fun _ => Act) → Clear m →
      m.before.Keeping Mode.step (fun _ _ => True) (Fits booter) →
      m.after.Keeping Mode.step (fun _ _ => True) (Fits booter) :=
    fun m happens clear h => h.step happens fun _ _ fits allowed =>
      fits.step happens.act clear allowed
  intro m hm
  obtain ⟨happens, mode, follows, fits⟩ :=
    run.invariant (start_fits booter addr transport program) clear keeps m hm
  obtain ⟨n, allowed, _⟩ := happens.allowed (follows m.who)
  exact fits.safe (fits.step happens.act (clear m hm) allowed) allowed

end Invariant

/-- One valid ring with two descriptors each way. -/
def oneRing : CtrlBlock where
  magic := magicNumber
  version := 0x20000
  numRings := 1
  array f i := match f with
    | .ringStatus => if i = 0 then statusValid else 0
    | .txDescCount | .rxDescCount => 2
    | _ => 0
  status := 1

theorem oneRing_good : Good oneRing.numRings oneRing.array := by
  refine ⟨by decide, fun r _ valid => ?_⟩
  have zero : r = 0 := by
    apply Classical.byContradiction
    intro other
    simp [oneRing, other, statusValid] at valid
  subst zero
  decide

/-- Initialization and a call for its ring. -/
theorem oneRing_safe :
    ∃ moments, (start () 0x9fc00 (some ()) fun _ : Unit =>
      perform (ApiCall.getRxAvailable 0)).Run (fun _ => Act) moments ∧
      (∃ m ∈ moments, m.op = .use (.rxLock 0) .lock) ∧ ∀ m ∈ moments, Safe m := by
  have run : (start () 0x9fc00 (some ()) fun _ : Unit => perform (ApiCall.getRxAvailable 0)).Reaches
      (fun _ => Act) Clear (·.op = .use (.rxLock 0) .lock) := by
    apply Pool.Reaches.call () rfl (.initialized _) ⟨nofun, nofun⟩
    apply Pool.Reaches.call () rfl (.outside _ (.readBlock _) (.ok oneRing) trivial) ⟨nofun, nofun⟩
    refine Pool.Reaches.call () rfl (.saveConfig _ _ _) ⟨?_, nofun⟩ ?_
    · rintro _ _ ⟨⟩
      exact oneRing_good
    apply Pool.Reaches.call () rfl (.create _ _ _) ⟨nofun, nofun⟩
    apply Pool.Reaches.call () rfl (.create _ _ _) ⟨nofun, nofun⟩
    apply Pool.Reaches.call () rfl (.outside _ (.access _) () trivial) ⟨nofun, nofun⟩
    apply Pool.Reaches.call () rfl (.create _ _ _) ⟨nofun, nofun⟩
    apply Pool.Reaches.call () rfl (.create _ _ _) ⟨nofun, nofun⟩
    apply Pool.Reaches.call () rfl (.outside _ (.access _) () trivial) ⟨nofun, nofun⟩
    apply Pool.Reaches.call () rfl (.outside _ .workQueueInit (.ok ()) trivial) ⟨nofun, nofun⟩
    apply Pool.Reaches.call () rfl (.outside _ (.access _) () trivial) ⟨nofun, nofun⟩
    apply Pool.Reaches.call () rfl (.outside _ (.workInit _) (.ok ()) trivial) ⟨nofun, nofun⟩
    apply Pool.Reaches.call () rfl (.setInitialized _) ⟨nofun, nofun⟩
    apply Pool.Reaches.call () rfl (.outside _ (.access _) () trivial) ⟨nofun, nofun⟩
    apply Pool.Reaches.call () rfl (.initialized _) ⟨nofun, nofun⟩
    apply Pool.Reaches.call () rfl (.cached _ _ _) ⟨nofun, nofun⟩
    exact Pool.Reaches.here () rfl (.outside _ (.use _ _) (.ok ()) trivial) ⟨nofun, nofun⟩ rfl
  obtain ⟨moments, run, clear, lock⟩ := run
  exact ⟨moments, run, lock, service_safe () _ _ _ run clear⟩

/-- A valid ring behind the number of rings. -/
def strayRing : CtrlBlock where
  magic := magicNumber
  version := 0x20000
  numRings := 0
  array f i := match f with
    | .ringStatus => if i = 3 then statusValid else 0
    | .txDescCount | .rxDescCount => 2
    | _ => 0
  status := 1

/-- The block is accepted, and a call for the ring locks a mutex that was never made. -/
theorem strayRing_unsafe :
    ∃ moments, (start () 0x9fc00 (some ()) fun _ : Unit =>
      perform (ApiCall.getRxAvailable 3)).Run (fun _ => Act) moments ∧
      ∃ m ∈ moments, m.before.state.initialized = true ∧ ¬Safe m := by
  have run : (start () 0x9fc00 (some ()) fun _ : Unit => perform (ApiCall.getRxAvailable 3)).Reaches
      (fun _ => Act) (fun _ => True) fun m => m.before.state.initialized = true ∧ ¬Safe m := by
    apply Pool.Reaches.call () rfl (.initialized _) trivial
    apply Pool.Reaches.call () rfl (.outside _ (.readBlock _) (.ok strayRing) trivial) trivial
    apply Pool.Reaches.call () rfl (.saveConfig _ _ _) trivial
    apply Pool.Reaches.call () rfl (.outside _ .workQueueInit (.ok ()) trivial) trivial
    apply Pool.Reaches.call () rfl (.setInitialized _) trivial
    apply Pool.Reaches.call () rfl (.initialized _) trivial
    apply Pool.Reaches.call () rfl (.cached _ _ _) trivial
    apply Pool.Reaches.here () rfl (.outside _ (.use _ _) (.ok ()) trivial) trivial
    refine ⟨rfl, fun safe => ?_⟩
    cases safe.created (.rxLock 3) .lock rfl
  obtain ⟨moments, run, _, bad⟩ := run
  exact ⟨moments, run, bad⟩

end Qapp.RingHost
