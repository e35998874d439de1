import Qapp.Spi.Limits

/-!
# Two unaligned writes side by side

The words at the edges of a range are read, changed and written back whole. When
another call writes to such a word in between, what it wrote there is lost.
-/

namespace Qapp.Spi
open ByteMem Script
open Bus (maxTransferSize)

/-- `[a, a + n)` -/
def InRange (a n x : Nat) : Prop := a ≤ x ∧ x < a + n

/-- The words that are transferred: those with a byte of the range, and the first one
of an empty range that is not aligned. -/
def Transfers (n addr w : Nat) : Prop :=
  addr / 4 ≤ w ∧ (4 * w < addr + n ∨ w = addr / 4 ∧ addr % 4 ≠ 0)

theorem Transfers.of_inRange {n addr x : Nat} (h : InRange addr n x) :
    Transfers n addr (x / 4) := by
  unfold InRange at h
  exact ⟨by omega, .inl (by omega)⟩

theorem Transfers.byte {n addr w : Nat} (h : Transfers n addr w) (some : n ≠ 0) :
    ∃ x, x / 4 = w ∧ InRange addr n x := by
  obtain ⟨from_, upTo⟩ := h
  by_cases start : addr ≤ 4 * w
  · exact ⟨4 * w, by omega, start, by omega⟩
  · exact ⟨addr, by omega, Nat.le_refl _, by omega⟩

theorem Transfers.unaligned {addr w : Nat} (h : Transfers 0 addr w) : addr % 4 ≠ 0 := by
  obtain ⟨from_, upTo⟩ := h
  omega

/-! ## What a call can reach -/

def AgreeOn (F : Nat → Prop) (m m' : Mem) : Prop := ∀ x, F x → m x = m' x

def WordOp.Within (F : Nat → Prop) : WordOp → Prop
  | .read size addr _ => ∀ x, InRange addr size x → F x
  | .write addr bytes => ∀ x, InRange addr bytes.length x → F x
  | .nop => True

section Within
variable {F G : Nat → Prop} {op : WordOp} {x : op.Ans} {m m' t : Mem}

theorem Remote.leaves (within : op.Within F) (apart : ∀ x, F x → ¬G x) (h : Remote m op x t)
    (alike : AgreeOn G m m') : AgreeOn G t m' := by
  cases h with
  | read | readFail | nop => exact alike
  | write =>
    intro x hx
    rw [store_apply_of_not_mem]
    · exact alike x hx
    · have := mt (within x) fun hf => apart x hf hx
      unfold InRange at this
      omega
  | writeFail err outside =>
    intro x hx
    rw [outside]
    · exact alike x hx
    · have := mt (within x) fun hf => apart x hf hx
      unfold InRange at this
      omega

theorem Remote.repeats (within : op.Within F) (h : Remote m op x t) (alike : AgreeOn F m m') :
    ∃ t', Remote m' op x t' ∧ AgreeOn F t t' := by
  cases h with
  | read filled =>
    refine ⟨m', .read fun i hi => ?_, alike⟩
    rw [filled i hi]
    exact alike _ (within _ ⟨by omega, by omega⟩)
  | readFail old buf size addr err => exact ⟨m', .readFail m' old buf size addr err, alike⟩
  | nop r => exact ⟨m', .nop m' r, alike⟩
  | write addr bytes =>
    refine ⟨_, .write m' addr bytes, ?_⟩
    intro x hx
    unfold store
    split
    · rfl
    · exact alike x hx
  | @writeFail _ addr bytes err outside =>
    refine ⟨fun x => if addr ≤ x ∧ x < addr + bytes.length then t x else m' x,
      .writeFail err ?_, ?_⟩
    · intro x hx
      exact if_neg (by omega)
    · intro x hx
      dsimp only
      split
      · rfl
      · rw [outside x (by omega)]
        exact alike x hx

theorem Remote.local (apart : ∀ x, F x → ¬G x) :
    Local Remote (WordOp.Within F) (AgreeOn F) (AgreeOn G) where
  repeats within h alike := h.repeats within alike
  leaves within h alike := h.leaves within apart alike

end Within

section Footprint
variable {F : Nat → Prop} {data : Mem} {n addr total : Nat}

theorem writeTail_within (word : ∀ x, InRange addr 4 x → F x) :
    (writeTail data n addr total).All (WordOp.Within F) := by
  refine ⟨word, ?_⟩
  rintro ⟨_ | _, _⟩
  · trivial
  · constructor
    · simpa only [WordOp.Within, length_patch] using word
    · intro _
      trivial

theorem writeRest_within (small : n < 2 ^ 16) (fits : addr + (n - total) ≤ 2 ^ 32)
    (words : ∀ x, addr ≤ x → x / 4 * 4 < addr + (n - total) → F x) (aligned : addr % 4 = 0)
    (more : total < n) : (writeRest data n addr total).All (WordOp.Within F) := by
  have whole : alignDown (n - total) ≤ n - total := Nat.div_mul_le_self _ _
  unfold writeRest
  split
  · constructor
    · intro x hx
      rw [length_load, Nat.mod_eq_of_lt (by omega)] at hx
      exact words x hx.1 (by have := hx.2; omega)
    · rintro (_ | _)
      · trivial
      · dsimp only
        split
        · trivial
        · have start : (addr + alignDown (n - total)) % 2 ^ 32 = addr + alignDown (n - total) :=
            Nat.mod_eq_of_lt (by omega)
          rw [start]
          apply writeTail_within
          intro x hx
          apply words x
          · exact Nat.le_trans (Nat.le_add_right _ _) hx.1
          · have := hx.2
            unfold alignDown at *
            omega
  · apply writeTail_within
    intro x hx
    exact words x hx.1 (by have := hx.2; omega)

theorem qcspiWriteAddrAlign_within (small : n < 2 ^ 16) (fits : addr + n ≤ 2 ^ 32) :
    (qcspiWriteAddrAlign n addr (some data)).All (WordOp.Within fun x => Transfers n addr (x / 4)) := by
  simp only [qcspiWriteAddrAlign]
  split
  next aligned =>
    constructor
    · intro x hx
      rw [length_load] at hx
      unfold InRange at hx
      exact ⟨by omega, .inl (by omega)⟩
    · intro _
      trivial
  next unaligned =>
    have first : ∀ x, InRange (alignDown addr) 4 x → Transfers n addr (x / 4) := by
      intro x hx
      unfold InRange alignDown at hx
      exact ⟨by omega, by omega⟩
    refine ⟨first, ?_⟩
    rintro ⟨_ | _, _⟩
    · trivial
    · refine ⟨trivial, fun _ => ⟨?_, ?_⟩⟩
      · simpa only [WordOp.Within, length_patch] using first
      · rintro (_ | _)
        · trivial
        · dsimp only
          split
          next => trivial
          next more =>
            have size := headSize_more more
            have inWord := alignDown_add_mod addr
            have start : (alignDown addr + 4) % 2 ^ 32 = addr + headSize addr n := by
              rw [Nat.mod_eq_of_lt] <;> omega
            rw [start]
            apply writeRest_within small (by omega)
            · intro x lo hi
              exact ⟨by omega, .inl (by omega)⟩
            · unfold alignDown at inWord
              omega
            · omega

end Footprint

/-! ## An empty range -/

/-- The word that holds an unaligned empty range is written back as it was read. -/
theorem emptyWrite_keeps {addr : Nat} {data s : Mem} (unaligned : addr % 4 ≠ 0) :
    (qcspiWriteAddrAlign 0 addr (some data)).Keeps Remote (· = s) (· = .ok ()) := by
  have none : headSize addr 0 = 0 := by
    unfold headSize
    split <;> omega
  simp only [qcspiWriteAddrAlign, unaligned, false_and, if_false, none]
  rintro m ⟨_ | u, word⟩ t rfl step canEnd
  · cases canEnd
  · obtain ⟨rfl, loaded⟩ := step.read_ok
    refine ⟨rfl, ?_⟩
    rintro m x t rfl step _
    refine ⟨step.nop_same, ?_⟩
    rintro m (_ | v) t rfl step canEnd
    · cases canEnd
    · refine ⟨?_, trivial⟩
      rw [step.write_ok, load_zero, store_patch (loaded 4 (Nat.le_refl _)) (by simp; omega)]
      funext x
      exact store_apply_of_not_mem _ (by simp; omega)

/-! ## A word read too early -/

/-- A byte that is not replaced is written back as it was read. -/
theorem store_patch_old {word t : Mem} {a offset x : Nat} {bytes : List UInt8}
    (here : InRange a 4 x) (old : ¬InRange (a + offset) bytes.length x) :
    store t a (patch word offset bytes) x = word (x - a) := by
  unfold InRange at here old
  rw [patch, store_load_apply, if_pos (by omega), store_apply_of_not_mem _ (by omega),
    Nat.zero_add]

section Stale
variable {n addr total x : Nat}

theorem Served.word (m old : Mem) (addr : Nat) :
    Served m (.read 4 addr old) (.ok (), fun i => m (addr + i)) m :=
  .call ⟨by decide, by decide⟩ (.serves_read m old 4 addr)

theorem Served.nop (m : Mem) (r : Except Errno Unit) : Served m .nop r m :=
  .call trivial (.nop m r)

theorem Served.patched (m word : Mem) (addr offset : Nat) (bytes : List UInt8) :
    Served m (.write addr (patch word offset bytes)) (.ok ())
      (store m addr (patch word offset bytes)) := by
  refine .call ⟨?_, ?_⟩ (.write m addr _)
  · rw [length_patch]
    decide
  · rw [length_patch]
    decide

theorem Served.middle (small : n < 2 ^ 16) (middle : total + 4 ≤ n)
    (short : alignDown (n - total) ≤ maxTransferSize) (data m : Mem) (addr : Nat) :
    Served m (.write addr (load data total (alignDown (n - total) % 2 ^ 16))) (.ok ())
      (store m addr (load data total (alignDown (n - total) % 2 ^ 16))) := by
  refine .call ⟨?_, ?_⟩ (.write m addr _)
  · rw [length_load, middle_cast small]
    exact middle_pos middle
  · rw [length_load, middle_cast small]
    exact short

/-- The script comes to a point from which it puts back the byte at `x` that there was. -/
def PutsBack (p : Words (Except Errno Unit)) (s : Mem) (x : Nat) : Prop :=
  ∃ p' s', Steps Served p s p' s' ∧ ∀ t, ∃ u, p'.Runs Served t (.ok ()) u ∧ u x = s x

theorem PutsBack.call {op : WordOp} {next : op.Ans → Words (Except Errno Unit)} {s t : Mem}
    {a : op.Ans} (step : Served s op a t) (same : t x = s x) (rest : PutsBack (next a) t x) :
    PutsBack (.call op next) s x := by
  obtain ⟨p', s', steps, last⟩ := rest
  refine ⟨p', s', .call step steps, fun t' => ?_⟩
  obtain ⟨u, run, put⟩ := last t'
  exact ⟨u, run, put.trans same⟩

theorem writeTail_putsBack (data s : Mem) (here : InRange addr 4 x)
    (behind : addr + (n - total) ≤ x) : PutsBack (writeTail data n addr total) s x := by
  apply Exists.intro
  refine ⟨s, .call (.word s _ addr) (.refl _ _), fun t => ?_⟩
  refine ⟨_, .call (.patched t _ addr 0 _) (.ret _ _), ?_⟩
  rw [store_patch_old here]
  · unfold InRange at here
    congr 1
    omega
  · rw [length_load]
    unfold InRange
    omega

theorem writeRest_putsBack (data s : Mem) (small : n < 2 ^ 16)
    (fits : addr + (n - total) ≤ 2 ^ 32) (aligned : addr % 4 = 0)
    (short : alignDown (n - total) ≤ maxTransferSize)
    (behind : addr + (n - total) ≤ x) (last : x / 4 * 4 < addr + (n - total)) :
    PutsBack (writeRest data n addr total) s x := by
  have whole : alignDown (n - total) ≤ n - total := Nat.div_mul_le_self _ _
  unfold writeRest
  split
  next middle =>
    have more : ¬n ≤ total + alignDown (n - total) := by
      unfold alignDown
      omega
    have start : (addr + alignDown (n - total)) % 2 ^ 32 = addr + alignDown (n - total) :=
      Nat.mod_eq_of_lt (by omega)
    simp only [qcspiWrite, perform_bind, more, if_false, start]
    apply PutsBack.call (.middle small middle short data s addr)
    · apply store_apply_of_not_mem
      rw [length_load, Nat.mod_eq_of_lt (by omega)]
      omega
    · apply writeTail_putsBack
      · unfold InRange
        unfold alignDown at *
        omega
      · omega
  next =>
    apply writeTail_putsBack
    · unfold InRange
      omega
    · exact behind

/-- Every byte of a transferred word that is not in the range. -/
theorem qcspiWriteAddrAlign_putsBack (data s : Mem) (small : n < 2 ^ 16)
    (fits : addr + n ≤ 2 ^ 32) (taken : ¬Refused addr n) (transfers : Transfers n addr (x / 4))
    (out : ¬InRange addr n x) : PutsBack (qcspiWriteAddrAlign n addr (some data)) s x := by
  have inWord := alignDown_add_mod addr
  have inside := headSize_inside addr n
  obtain ⟨from_, upTo⟩ := transfers
  unfold InRange at out
  have partly : ¬(addr % 4 = 0 ∧ n % 4 = 0) := by omega
  rw [not_refused_iff, if_neg partly] at taken
  simp only [qcspiWriteAddrAlign, qcspiRead, qcspiWrite, perform_bind, partly, if_false]
  by_cases first : x / 4 = addr / 4
  · -- the word is the first one: the rest of the call happens later
    have here : InRange (alignDown addr) 4 x := by
      unfold InRange alignDown
      omega
    have old : ¬InRange (alignDown addr + addr % 4) (load data 0 (headSize addr n)).length x := by
      rw [length_load, inWord]
      unfold InRange headSize
      split <;> omega
    have back : s (alignDown addr + (x - alignDown addr)) = s x :=
      congrArg s (Nat.add_sub_cancel' here.1)
    have after (w : Mem) : ∃ u, (if n ≤ headSize addr n then pure (.ok ())
        else writeRest data n ((alignDown addr + 4) % 2 ^ 32) (headSize addr n)).Runs Served w
          (.ok ()) u ∧ u x = w x := by
      by_cases all : n ≤ headSize addr n
      · simp only [all, if_true]
        exact ⟨w, .ret _ w, rfl⟩
      · have size := headSize_more all
        have start : (alignDown addr + 4) % 2 ^ 32 = addr + headSize addr n := by
          rw [Nat.mod_eq_of_lt] <;> omega
        simp only [all, if_false, start]
        obtain ⟨u, rest⟩ : ∃ u, (writeRest data n (addr + headSize addr n) (headSize addr n)).Runs
            Served w (.ok ()) u := writeRest_serves small taken data w
        have := here.2
        refine ⟨u, rest, ?_⟩
        rw [writeRest_ok (rest.mono fun _ _ _ _ h => h.remote) small (by omega),
          store_apply_of_not_mem _ (by omega)]
    apply Exists.intro
    refine ⟨s, .call (.word s _ (alignDown addr)) (.refl _ _), fun t => ?_⟩
    obtain ⟨u, rest, same⟩ := after (store t (alignDown addr)
      (patch (fun i => s (alignDown addr + i)) (addr % 4) (load data 0 (headSize addr n))))
    refine ⟨u, .call (.nop t (.ok ()))
      (.call (.patched t _ (alignDown addr) (addr % 4) _) rest), ?_⟩
    rw [same, store_patch_old here old]
    exact back
  · have more : ¬n ≤ headSize addr n := by omega
    have size := headSize_more more
    have start : (alignDown addr + 4) % 2 ^ 32 = addr + headSize addr n := by
      rw [Nat.mod_eq_of_lt] <;> omega
    apply PutsBack.call (.word s _ (alignDown addr)) rfl
    apply PutsBack.call (.nop s (.ok ())) rfl
    apply PutsBack.call (.patched s _ (alignDown addr) (addr % 4) _)
    · apply store_apply_of_not_mem
      rw [length_patch]
      unfold alignDown
      omega
    · simp only [more, if_false, start]
      unfold alignDown at inWord
      apply writeRest_putsBack data _ small _ _ taken <;> omega

end Stale

/-! ## Both calls -/

section Pair
variable {n a m b : Nat}

/-- Both ranges hold what was written to them, and the rest is as it was. -/
def Merged (n a m b : Nat) (d e s s' : Mem) : Prop :=
  ∀ x, (InRange a n x → s' x = d (x - a)) ∧ (InRange b m x → s' x = e (x - b)) ∧
    (¬InRange a n x → ¬InRange b m x → s' x = s x)

/-- No word with a byte of either range is transferred by both calls. -/
def WordsApart (n a m b : Nat) : Prop :=
  ∀ x, Transfers n a (x / 4) → Transfers m b (x / 4) → ¬InRange a n x ∧ ¬InRange b m x

/-- Some interleaving puts an old byte back into the second range. -/
theorem overwritten (small : n < 2 ^ 16) (fits : a + n ≤ 2 ^ 32) (small' : m < 2 ^ 16)
    (taken : ¬Refused a n) (taken' : ¬Refused b m) {x : Nat} (transfers : Transfers n a (x / 4))
    (out : ¬InRange a n x) (d e s : Mem) :
    ∃ s', Both Served (qcspiWriteAddrAlign n a (some d)) (qcspiWriteAddrAlign m b (some e)) s
      (.ok ()) (.ok ()) s' ∧ s' x = s x := by
  obtain ⟨p', t, steps, last⟩ := qcspiWriteAddrAlign_putsBack d s small fits taken transfers out
  obtain ⟨t', second⟩ := qcspiWriteAddrAlign_serves small' taken' e t
  obtain ⟨u, run, put⟩ := last t'
  exact ⟨u, steps.both (second.then_left (run.both_left _)), put⟩

theorem merged_apart (small : n < 2 ^ 16) (fits : a + n ≤ 2 ^ 32) (small' : m < 2 ^ 16)
    (fits' : b + m ≤ 2 ^ 32) (apart : ∀ w, Transfers n a w → ¬Transfers m b w) {d e s s' : Mem}
    (run : Both Remote (qcspiWriteAddrAlign n a (some d)) (qcspiWriteAddrAlign m b (some e)) s
      (.ok ()) (.ok ()) s') : Merged n a m b d e s s' := by
  let F x := Transfers n a (x / 4)
  let G x := Transfers m b (x / 4)
  have first : (qcspiWriteAddrAlign n a (some d)).All (WordOp.Within F) :=
    qcspiWriteAddrAlign_within small fits
  have second : (qcspiWriteAddrAlign m b (some e)).All (WordOp.Within G) :=
    qcspiWriteAddrAlign_within small' fits'
  have left : Local Remote (WordOp.Within F) (AgreeOn F) (AgreeOn G) :=
    Remote.local fun x => apart (x / 4)
  have right : Local Remote (WordOp.Within G) (AgreeOn G) (AgreeOn F) :=
    Remote.local fun x hg hf => apart (x / 4) hf hg
  obtain ⟨⟨t, run₁, same₁⟩, t', run₂, same₂⟩ :=
    run.apart left right first second (fun _ _ => rfl) (fun _ _ => rfl)
  have rest : AgreeOn (fun x => ¬F x ∧ ¬G x) s' s := by
    apply run.keeps (AgreeOn (fun x => ¬F x ∧ ¬G x) · s) (fun _ => True) (fun _ => True)
    · intro _ _
      rfl
    · exact first.keeps fun _ _ _ _ within alike step =>
        step.leaves within (fun _ hf h => h.1 hf) alike
    · exact second.keeps fun _ _ _ _ within alike step =>
        step.leaves within (fun _ hg h => h.2 hg) alike
    · trivial
    · trivial
  have one := qcspiWriteAddrAlign_ok run₁ small fits
  have two := qcspiWriteAddrAlign_ok run₂ small' fits'
  subst one two
  simp only [AgreeOn, store_load_apply, Nat.zero_add] at same₁ same₂
  intro x
  refine ⟨fun inFirst => ?_, fun inSecond => ?_, fun out out' => ?_⟩
  · rw [same₁ x (.of_inRange inFirst)]
    exact if_pos inFirst
  · rw [same₂ x (.of_inRange inSecond)]
    exact if_pos inSecond
  · by_cases hf : F x
    · rw [same₁ x hf]
      exact if_neg out
    · by_cases hg : G x
      · rw [same₂ x hg]
        exact if_neg out'
      · exact rest x ⟨hf, hg⟩

theorem merged_empty (unaligned : a % 4 ≠ 0) (unaligned' : b % 4 ≠ 0) {d e s s' : Mem}
    (run : Both Remote (qcspiWriteAddrAlign 0 a (some d)) (qcspiWriteAddrAlign 0 b (some e)) s
      (.ok ()) (.ok ()) s') : Merged 0 a 0 b d e s s' := by
  have same : s' = s :=
    run.keeps (· = s) (· = .ok ()) (· = .ok ()) rfl (emptyWrite_keeps unaligned)
      (emptyWrite_keeps unaligned') rfl rfl
  unfold Merged InRange
  intro x
  refine ⟨by omega, by omega, fun _ _ => congrFun same x⟩

/-- A call that returns 0 is none the driver refuses, whatever else is on the bus. -/
theorem both_taken (small : n < 2 ^ 16) {p : Words (Except Errno Unit)} {d s s' : Mem}
    {y : Except Errno Unit}
    (run : Both Served (qcspiWriteAddrAlign n a (some d)) p s (.ok ()) y s') : ¬Refused a n := by
  apply write_served ?_ small (run.answered s)
  rintro m m' addr bytes ⟨t, t', step⟩
  exact step.write_fits

/-- Two writes on ranges without a common byte leave both ranges written in every
interleaving in which both return 0 if and only if no word with a byte of either is
transferred by both, or one of them never returns 0. -/
theorem writes_merge_iff (small : n < 2 ^ 16) (fits : a + n ≤ 2 ^ 32) (small' : m < 2 ^ 16)
    (fits' : b + m ≤ 2 ^ 32) (disjoint : ∀ x, ¬(InRange a n x ∧ InRange b m x)) :
    (∀ d e s s', Both Served (qcspiWriteAddrAlign n a (some d))
      (qcspiWriteAddrAlign m b (some e)) s (.ok ()) (.ok ()) s' → Merged n a m b d e s s') ↔
    Refused a n ∨ Refused b m ∨ WordsApart n a m b := by
  constructor
  · intro merged
    by_cases taken : Refused a n
    · exact .inl taken
    by_cases taken' : Refused b m
    · exact .inr (.inl taken')
    refine .inr (.inr fun x first second => ?_)
    -- zeros before, ones written
    let zeros : Mem := fun _ => 0
    let ones : Mem := fun _ => 1
    have differ : (0 : UInt8) ≠ 1 := by decide
    constructor
    · intro inFirst
      have out : ¬InRange b m x := fun inSecond => disjoint x ⟨inFirst, inSecond⟩
      obtain ⟨s', run, old⟩ :=
        overwritten small' fits' small taken' taken second out ones ones zeros
      exact differ (old.symm.trans ((merged ones ones zeros s' run.swap x).1 inFirst))
    · intro inSecond
      have out : ¬InRange a n x := fun inFirst => disjoint x ⟨inFirst, inSecond⟩
      obtain ⟨s', run, old⟩ :=
        overwritten small fits small' taken taken' first out ones ones zeros
      exact differ (old.symm.trans ((merged ones ones zeros s' run x).2.1 inSecond))
  · rintro (refused | refused | apart) d e s s' run
    · exact absurd refused (both_taken small run)
    · exact absurd refused (both_taken small' run.swap)
    · have run := run.mono fun _ _ _ _ h => h.remote
      by_cases shared : ∃ w, Transfers n a w ∧ Transfers m b w
      · obtain ⟨w, first, second⟩ := shared
        -- both ranges are empty, or the word would hold a byte of one of them
        have none : n = 0 := by
          apply Classical.byContradiction
          intro some
          obtain ⟨x, rfl, byte⟩ := first.byte some
          exact (apart x first second).1 byte
        have none' : m = 0 := by
          apply Classical.byContradiction
          intro some
          obtain ⟨x, rfl, byte⟩ := second.byte some
          exact (apart x first second).2 byte
        subst none none'
        exact merged_empty first.unaligned second.unaligned run
      · exact merged_apart small fits small' fits' (fun w h h' => shared ⟨w, h, h'⟩) run

end Pair

/-- Six bytes across a word boundary, and three from the next word on. -/
theorem writes_merge_two_words :
    ∃ d e s s', Both Served (qcspiWriteAddrAlign 6 2 (some d)) (qcspiWriteAddrAlign 3 8 (some e)) s
      (.ok ()) (.ok ()) s' ∧ Merged 6 2 3 8 d e s s' := by
  have merges := (writes_merge_iff (n := 6) (a := 2) (m := 3) (b := 8) (by decide) (by decide)
    (by decide) (by decide) (by unfold InRange; omega)).mpr (by
      refine .inr (.inr fun x first second => ?_)
      unfold Transfers at first second
      omega)
  obtain ⟨t, second⟩ : ∃ t, (qcspiWriteAddrAlign 3 8 (some fun _ => 2)).Runs Served (fun _ => 0)
      (.ok ()) t := qcspiWriteAddrAlign_serves (by decide) (by decide) _ _
  obtain ⟨s', first⟩ : ∃ s', (qcspiWriteAddrAlign 6 2 (some fun _ => 1)).Runs Served t
      (.ok ()) s' := qcspiWriteAddrAlign_serves (by decide) (by decide) _ _
  have run := second.then_left (first.both_left _)
  exact ⟨_, _, _, s', run, merges _ _ _ _ run⟩

/-- Two halves of one word: the second one keeps its zeros. -/
theorem halves_not_merged :
    ∃ s', Both Served (qcspiWriteAddrAlign 2 0 (some fun _ => 1))
      (qcspiWriteAddrAlign 2 2 (some fun _ => 1)) (fun _ => 0) (.ok ()) (.ok ()) s' ∧
      ¬Merged 2 0 2 2 (fun _ => 1) (fun _ => 1) (fun _ => 0) s' := by
  obtain ⟨s', run, old⟩ := overwritten (n := 2) (a := 0) (m := 2) (b := 2) (x := 2) (by decide)
    (by decide) (by decide) (by decide) (by decide) ⟨by decide, by decide⟩ (by simp [InRange])
    (fun _ => 1) (fun _ => 1) (fun _ => 0)
  refine ⟨s', run, fun merged => ?_⟩
  have written := (merged 2).2.1 ⟨by decide, by decide⟩
  rw [old] at written
  exact absurd written (by decide)

end Qapp.Spi
