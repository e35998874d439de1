import Qapp.Spi.Driver

/-!
# An unaligned access is an access to byte memory

What a run of each of the two functions leaves when it returns 0, whatever the range.
-/

namespace Qapp.Spi
open ByteMem

/-! ## The first word -/

theorem alignDown_add_mod (addr : Nat) : alignDown addr + addr % 4 = addr :=
  Nat.div_add_mod' addr 4

theorem headSize_inside (addr n : Nat) : addr % 4 + headSize addr n ≤ 4 := by
  unfold headSize
  split <;> omega

theorem headSize_all {addr n : Nat} (all : n ≤ headSize addr n) : headSize addr n = n := by
  revert all
  unfold headSize
  split <;> omega

theorem headSize_more {addr n : Nat} (more : ¬n ≤ headSize addr n) :
    headSize addr n = 4 - addr % 4 := by
  revert more
  unfold headSize
  split <;> omega

/-! ## Calls that succeed -/

theorem Remote.read_ok {m m' old buf : Mem} {size addr : Nat} {u : Unit}
    (h : Remote m (.read size addr old) (.ok u, buf) m') :
    m' = m ∧ ∀ k, k ≤ size → load buf 0 k = load m addr k := by
  cases h with
  | read filled =>
    refine ⟨rfl, fun k hk => ?_⟩
    apply List.map_congr_left
    intro i hi
    have := List.mem_range.mp hi
    rw [Nat.zero_add]
    exact filled i (by omega)

theorem Remote.write_ok {m m' : Mem} {addr : Nat} {bytes : List UInt8} {u : Unit}
    (h : Remote m (.write addr bytes) (.ok u) m') : m' = store m addr bytes := by
  cases h with
  | write => rfl

theorem Remote.nop_same {m m' : Mem} {r : Except Errno Unit} (h : Remote m .nop r m') :
    m' = m := by
  cases h with
  | nop => rfl

/-! ## Reads -/

section Read
variable {n addr total : Nat} {m m' buf : Mem} {r : Except Errno Unit × Mem}

theorem readTail_ok (run : (readTail n addr total buf).Runs Remote m r m') (ok : r.1 = .ok ())
    (short : n - total ≤ 4) : r.2 = store buf total (load m addr (n - total)) ∧ m' = m := by
  simp only [readTail, qcspiRead, Script.perform_bind, Script.pure_eq] at run
  obtain ⟨⟨res, word⟩, t, step, rest⟩ := run.call_inv
  cases res with
  | error err =>
    obtain ⟨rfl, _⟩ := rest.ret_inv
    cases ok
  | ok u =>
    obtain ⟨rfl, rfl⟩ := rest.ret_inv
    obtain ⟨rfl, loaded⟩ := step.read_ok
    exact ⟨congrArg (store buf total) (loaded _ short), rfl⟩

theorem readRest_ok (run : (readRest n addr total buf).Runs Remote m r m') (ok : r.1 = .ok ())
    (small : n < 2 ^ 16) (fits : addr + (n - total) ≤ 2 ^ 32) :
    r.2 = store buf total (load m addr (n - total)) ∧ m' = m := by
  unfold readRest at run
  split at run
  next middle =>
    have whole : alignDown (n - total) ≤ n - total := Nat.div_mul_le_self _ _
    have cast : alignDown (n - total) % 2 ^ 16 = alignDown (n - total) :=
      Nat.mod_eq_of_lt (by omega)
    simp only [qcspiRead, Script.perform_bind, Script.pure_eq, cast] at run
    obtain ⟨⟨res, bytes⟩, t, step, rest⟩ := run.call_inv
    cases res with
    | error err =>
      obtain ⟨rfl, _⟩ := rest.ret_inv
      cases ok
    | ok u =>
      obtain ⟨rfl, loaded⟩ := step.read_ok
      have got := loaded _ (Nat.le_refl _)
      rw [cast] at got
      simp only [got] at rest
      split at rest
      next all =>
        obtain ⟨rfl, rfl⟩ := rest.ret_inv
        have : alignDown (n - total) = n - total := by omega
        exact ⟨by simp only [this], rfl⟩
      next more =>
        have left : n - (total + alignDown (n - total)) < 4 := by
          unfold alignDown
          omega
        have noWrap : (addr + alignDown (n - total)) % 2 ^ 32 = addr + alignDown (n - total) :=
          Nat.mod_eq_of_lt (by omega)
        rw [noWrap] at rest
        obtain ⟨last, rfl⟩ := readTail_ok rest ok (by omega)
        constructor
        · have pieces := store_append buf total (load m' addr (alignDown (n - total)))
            (load m' (addr + alignDown (n - total)) (n - (total + alignDown (n - total))))
          rw [length_load, ← load_append] at pieces
          rw [last, pieces]
          congr 2
          omega
        · rfl
  next => exact readTail_ok run ok (by omega)

theorem qcspiReadAddrAlign_ok (run : (qcspiReadAddrAlign n addr (some buf)).Runs Remote m r m')
    (ok : r.1 = .ok ()) (small : n < 2 ^ 16) (fits : addr + n ≤ 2 ^ 32) :
    r.2 = store buf 0 (load m addr n) ∧ m' = m := by
  simp only [qcspiReadAddrAlign, qcspiRead, Script.perform_bind, Script.pure_eq] at run
  split at run
  next aligned =>
    obtain ⟨⟨res, bytes⟩, t, step, rest⟩ := run.call_inv
    obtain ⟨rfl, rfl⟩ := rest.ret_inv
    obtain rfl : res = .ok () := ok
    obtain ⟨rfl, loaded⟩ := step.read_ok
    exact ⟨congrArg (store buf 0) (loaded _ (Nat.le_refl _)), rfl⟩
  next =>
    obtain ⟨⟨res, word⟩, t, step, rest⟩ := run.call_inv
    cases res with
    | error err =>
      obtain ⟨rfl, _⟩ := rest.ret_inv
      cases ok
    | ok u =>
      obtain ⟨rfl, loaded⟩ := step.read_ok
      have inWord := alignDown_add_mod addr
      have head : load word (addr % 4) (headSize addr n) = load t addr (headSize addr n) := by
        have short := headSize_inside addr n
        have := congrArg (List.drop (addr % 4)) (loaded _ short)
        rwa [drop_load _ _ (by omega), drop_load _ _ (by omega), Nat.zero_add, inWord,
          Nat.add_sub_cancel_left] at this
      simp only [head] at rest
      split at rest
      next all =>
        obtain ⟨rfl, rfl⟩ := rest.ret_inv
        exact ⟨by simp only [headSize_all all], rfl⟩
      next more =>
        have size := headSize_more more
        have noWrap : (alignDown addr + 4) % 2 ^ 32 = addr + headSize addr n := by
          rw [Nat.mod_eq_of_lt] <;> omega
        rw [noWrap] at rest
        obtain ⟨last, rfl⟩ := readRest_ok rest ok small (by omega)
        constructor
        · have pieces := store_append buf 0 (load m' addr (headSize addr n))
            (load m' (addr + headSize addr n) (n - headSize addr n))
          rw [length_load, ← load_append, Nat.zero_add] at pieces
          rw [last, pieces]
          congr 2
          omega
        · rfl

end Read

/-! ## Writes -/

/-- A word written back with some of its bytes replaced. -/
theorem store_patch {m word : Mem} {a offset : Nat} {bytes : List UInt8}
    (loaded : load word 0 4 = load m a 4) (inside : offset + bytes.length ≤ 4) :
    store m a (patch word offset bytes) = store m (a + offset) bytes := by
  funext x
  rw [patch, store_load_apply]
  split
  next here =>
    by_cases new : a + offset ≤ x ∧ x < a + offset + bytes.length
    · rw [store_apply_of_mem _ (by omega) (by omega), store_apply_of_mem _ new.1 new.2]
      congr 1
      omega
    · rw [store_apply_of_not_mem _ (by omega), store_apply_of_not_mem _ (by omega)]
      have same := congrArg (List.getD · (x - a) 0) loaded
      rw [getD_load _ _ (by omega), getD_load _ _ (by omega)] at same
      rw [same]
      congr 1
      omega
  next => rw [store_apply_of_not_mem _ (by omega)]

section Write
variable {n addr total : Nat} {m m' data : Mem} {u : Unit}

theorem writeTail_ok (run : (writeTail data n addr total).Runs Remote m (.ok u) m')
    (short : n - total ≤ 4) : m' = store m addr (load data total (n - total)) := by
  simp only [writeTail, qcspiRead, qcspiWrite, Script.perform, Script.call_bind, Script.ret_bind,
    Script.pure_eq] at run
  obtain ⟨⟨res, word⟩, t, step, rest⟩ := run.call_inv
  cases res with
  | error err =>
    obtain ⟨_, _⟩ := rest.ret_inv
    contradiction
  | ok v =>
    obtain ⟨rfl, loaded⟩ := step.read_ok
    obtain ⟨res, t', step, rest⟩ := rest.call_inv
    obtain ⟨rfl, rfl⟩ := rest.ret_inv
    rw [step.write_ok, store_patch (loaded _ (Nat.le_refl _)) (by simpa using short)]
    rfl

theorem writeRest_ok (run : (writeRest data n addr total).Runs Remote m (.ok u) m')
    (small : n < 2 ^ 16) (fits : addr + (n - total) ≤ 2 ^ 32) :
    m' = store m addr (load data total (n - total)) := by
  unfold writeRest at run
  split at run
  next middle =>
    have whole : alignDown (n - total) ≤ n - total := Nat.div_mul_le_self _ _
    have cast : alignDown (n - total) % 2 ^ 16 = alignDown (n - total) :=
      Nat.mod_eq_of_lt (by omega)
    simp only [qcspiWrite, Script.perform_bind, Script.pure_eq] at run
    obtain ⟨res, t, step, rest⟩ := run.call_inv
    cases res with
    | error err =>
      obtain ⟨_, _⟩ := rest.ret_inv
      contradiction
    | ok v =>
      obtain rfl := step.write_ok
      simp only [cast] at rest
      split at rest
      next all =>
        obtain ⟨_, rfl⟩ := rest.ret_inv
        have : alignDown (n - total) = n - total := by omega
        rw [this]
      next more =>
        have left : n - (total + alignDown (n - total)) < 4 := by
          unfold alignDown
          omega
        have noWrap : (addr + alignDown (n - total)) % 2 ^ 32 = addr + alignDown (n - total) :=
          Nat.mod_eq_of_lt (by omega)
        rw [noWrap] at rest
        have pieces := store_append m addr (load data total (alignDown (n - total)))
          (load data (total + alignDown (n - total)) (n - (total + alignDown (n - total))))
        rw [length_load, ← load_append] at pieces
        rw [writeTail_ok rest (by omega), pieces]
        congr 2
        omega
  next => exact writeTail_ok run (by omega)

theorem qcspiWriteAddrAlign_ok
    (run : (qcspiWriteAddrAlign n addr (some data)).Runs Remote m (.ok u) m')
    (small : n < 2 ^ 16) (fits : addr + n ≤ 2 ^ 32) : m' = store m addr (load data 0 n) := by
  simp only [qcspiWriteAddrAlign, qcspiRead, qcspiWrite, Script.perform, Script.call_bind,
    Script.ret_bind, Script.pure_eq] at run
  split at run
  next aligned =>
    obtain ⟨res, t, step, rest⟩ := run.call_inv
    obtain ⟨rfl, rfl⟩ := rest.ret_inv
    exact step.write_ok
  next =>
    obtain ⟨⟨res, word⟩, t, step, rest⟩ := run.call_inv
    cases res with
    | error err =>
      obtain ⟨_, _⟩ := rest.ret_inv
      contradiction
    | ok v =>
      obtain ⟨rfl, loaded⟩ := step.read_ok
      obtain ⟨_, t', waited, rest⟩ := rest.call_inv
      rw [waited.nop_same] at rest
      obtain ⟨res, _, step, rest⟩ := rest.call_inv
      cases res with
      | error err =>
        obtain ⟨_, _⟩ := rest.ret_inv
        contradiction
      | ok v =>
        have inWord := alignDown_add_mod addr
        have short := headSize_inside addr n
        have written := step.write_ok
        rw [store_patch (loaded _ (Nat.le_refl _)) (by simpa using short), inWord] at written
        subst written
        dsimp only at rest
        split at rest
        next all =>
          obtain ⟨_, rfl⟩ := rest.ret_inv
          rw [headSize_all all]
        next more =>
          have size := headSize_more more
          have noWrap : (alignDown addr + 4) % 2 ^ 32 = addr + headSize addr n := by
            rw [Nat.mod_eq_of_lt] <;> omega
          rw [noWrap] at rest
          have pieces := store_append t addr (load data 0 (headSize addr n))
            (load data (0 + headSize addr n) (n - headSize addr n))
          rw [length_load, ← load_append, Nat.zero_add] at pieces
          rw [writeRest_ok rest small (by omega), pieces]
          congr 2
          omega

end Write

/-! ## Runs that succeed -/

theorem Remote.serves_read (m old : Mem) (size addr : Nat) :
    Remote m (.read size addr old) (.ok (), fun i => m (addr + i)) m :=
  .read fun _ _ => rfl

theorem writeTail_runs (data m : Mem) (n addr total : Nat) :
    ∃ m', (writeTail data n addr total).Runs Remote m (.ok ()) m' := by
  apply Exists.intro
  apply Script.Runs.call (.serves_read m _ 4 addr)
  apply Script.Runs.call (.write m addr _)
  exact .ret _ _

theorem writeRest_runs (data m : Mem) (n addr total : Nat) :
    ∃ m', (writeRest data n addr total).Runs Remote m (.ok ()) m' := by
  unfold writeRest
  split
  · by_cases all : n ≤ total + alignDown (n - total)
    · apply Exists.intro
      apply Script.Runs.call (.write m addr _)
      simp only [all, if_true]
      exact .ret _ _
    · obtain ⟨m', rest⟩ := writeTail_runs data
        (store m addr (load data total (alignDown (n - total) % 2 ^ 16))) n
        ((addr + alignDown (n - total)) % 2 ^ 32) (total + alignDown (n - total))
      simp only [qcspiWrite, Script.perform_bind, all, if_false]
      exact ⟨m', .call (.write m addr _) rest⟩
  · exact writeTail_runs data m n addr total

theorem qcspiWriteAddrAlign_runs (data m : Mem) (n addr : Nat) :
    ∃ m', (qcspiWriteAddrAlign n addr (some data)).Runs Remote m (.ok ()) m' := by
  simp only [qcspiWriteAddrAlign]
  split
  · exact ⟨_, .call (.write m addr _) (.ret _ _)⟩
  · by_cases all : n ≤ headSize addr n
    · apply Exists.intro
      apply Script.Runs.call (.serves_read m _ 4 (alignDown addr))
      apply Script.Runs.call (.nop m (.ok ()))
      apply Script.Runs.call (.write m (alignDown addr) _)
      simp only [all, if_true]
      exact .ret _ _
    · obtain ⟨m', rest⟩ := writeRest_runs data
        (store m (alignDown addr) (patch (fun i => m (alignDown addr + i)) (addr % 4)
          (load data 0 (headSize addr n)))) n ((alignDown addr + 4) % 2 ^ 32) (headSize addr n)
      simp only [qcspiRead, qcspiWrite, Script.perform_bind, all, if_false]
      exact ⟨m', .call (.serves_read m _ 4 (alignDown addr)) (.call (.nop m (.ok ()))
        (.call (.write m (alignDown addr) _) rest))⟩

/-! ## Whole words only -/

theorem readTail_aligned {n addr total : Nat} {buf : Mem} (word : addr % 4 = 0) :
    (readTail n addr total buf).All WordOp.Aligned := by
  refine ⟨⟨word, rfl⟩, ?_⟩
  rintro ⟨_ | _, _⟩ <;> trivial

theorem readRest_aligned {n addr total : Nat} {buf : Mem} (word : addr % 4 = 0) :
    (readRest n addr total buf).All WordOp.Aligned := by
  unfold readRest
  split
  · constructor
    · constructor
      · exact word
      · unfold alignDown
        omega
    · rintro ⟨_ | _, _⟩
      · trivial
      · dsimp only
        split
        · trivial
        · apply readTail_aligned
          unfold alignDown
          omega
  · exact readTail_aligned word

theorem qcspiReadAddrAlign_aligned (n addr : Nat) (buf : Option Mem) :
    (qcspiReadAddrAlign n addr buf).All WordOp.Aligned := by
  have first : alignDown addr % 4 = 0 := Nat.mul_mod_left _ 4
  cases buf with
  | none => trivial
  | some buf =>
    simp only [qcspiReadAddrAlign]
    split
    next both =>
      constructor
      · exact both
      · intro _
        trivial
    next =>
      refine ⟨⟨first, rfl⟩, ?_⟩
      rintro ⟨_ | _, _⟩
      · trivial
      · dsimp only
        split
        · trivial
        · apply readRest_aligned
          omega

@[simp] theorem length_patch (word : Mem) (offset : Nat) (bytes : List UInt8) :
    (patch word offset bytes).length = 4 := length_load _ _ _

theorem writeTail_aligned {data : Mem} {n addr total : Nat} (word : addr % 4 = 0) :
    (writeTail data n addr total).All WordOp.Aligned := by
  refine ⟨⟨word, rfl⟩, ?_⟩
  rintro ⟨_ | _, _⟩
  · trivial
  · refine ⟨⟨word, ?_⟩, fun _ => trivial⟩
    rw [length_patch]

theorem writeRest_aligned {data : Mem} {n addr total : Nat} (word : addr % 4 = 0) :
    (writeRest data n addr total).All WordOp.Aligned := by
  unfold writeRest
  split
  · constructor
    · constructor
      · exact word
      · rw [length_load]
        unfold alignDown
        omega
    · rintro (_ | _)
      · trivial
      · dsimp only
        split
        · trivial
        · apply writeTail_aligned
          unfold alignDown
          omega
  · exact writeTail_aligned word

theorem qcspiWriteAddrAlign_aligned (n addr : Nat) (data : Option Mem) :
    (qcspiWriteAddrAlign n addr data).All WordOp.Aligned := by
  have first : alignDown addr % 4 = 0 := Nat.mul_mod_left _ 4
  cases data with
  | none => trivial
  | some data =>
    simp only [qcspiWriteAddrAlign]
    split
    next both =>
      constructor
      · simpa [WordOp.Aligned] using both
      · intro _
        trivial
    next =>
      refine ⟨⟨first, rfl⟩, ?_⟩
      rintro ⟨_ | _, _⟩
      · trivial
      · refine ⟨trivial, fun _ => ⟨⟨first, by rw [length_patch]⟩, ?_⟩⟩
        rintro (_ | _)
        · trivial
        · dsimp only
          split
          · trivial
          · apply writeRest_aligned
            omega

/-! ## The accesses as one -/

/-- Whatever the address and the size: a read that returns 0 has filled exactly its
buffer with the bytes of the range, a write that does has changed exactly the range, and
every transfer below is of whole words. -/
theorem unaligned_byte_memory {n addr : Nat} (small : n < 2 ^ 16) (fits : addr + n ≤ 2 ^ 32) :
    (∀ (buf m m' : Mem) (r : Except Errno Unit × Mem),
      (qcspiReadAddrAlign n addr (some buf)).Runs Remote m r m' → r.1 = .ok () →
        (∀ i, r.2 i = if i < n then m (addr + i) else buf i) ∧ m' = m) ∧
    (∀ (data m m' : Mem),
      (qcspiWriteAddrAlign n addr (some data)).Runs Remote m (.ok ()) m' →
        ∀ x, m' x = if addr ≤ x ∧ x < addr + n then data (x - addr) else m x) ∧
    (∀ buf, (qcspiReadAddrAlign n addr buf).All WordOp.Aligned) ∧
    ∀ data, (qcspiWriteAddrAlign n addr data).All WordOp.Aligned := by
  refine ⟨?_, ?_, qcspiReadAddrAlign_aligned n addr, qcspiWriteAddrAlign_aligned n addr⟩
  · intro buf m m' r run ok
    obtain ⟨filled, same⟩ := qcspiReadAddrAlign_ok run ok small fits
    refine ⟨fun i => ?_, same⟩
    rw [filled, store_load_apply]
    simp
  · intro data m m' run x
    rw [qcspiWriteAddrAlign_ok run small fits, store_load_apply]
    simp

/-- Three bytes across a word boundary: both functions have runs that return 0. -/
theorem unaligned_byte_memory_three :
    ∃ (m m' buf : Mem),
      (qcspiWriteAddrAlign 3 6 (some fun _ => 1)).Runs Remote (fun _ => 0) (.ok ()) m ∧
      (qcspiReadAddrAlign 3 6 (some fun _ => 7)).Runs Remote m (.ok (), buf) m' ∧
      m' = m ∧ m 5 = 0 ∧ m 6 = 1 ∧ m 9 = 0 ∧ buf 2 = 1 ∧ buf 3 = 7 := by
  have fits : 6 + 3 ≤ 2 ^ 32 := by decide
  obtain ⟨reads, writes, _⟩ := unaligned_byte_memory (n := 3) (by decide) fits
  obtain ⟨m, written⟩ := qcspiWriteAddrAlign_runs (fun _ => 1) (fun _ => 0) 3 6
  have bytes := writes _ _ _ written
  have read : ∃ buf, (qcspiReadAddrAlign 3 6 (some fun _ => 7)).Runs Remote m (.ok (), buf) m :=
    ⟨_, .call (.serves_read m _ 4 4) (.call (.serves_read m _ 4 8) (.ret _ _))⟩
  obtain ⟨buf, read⟩ := read
  have filled := (reads _ _ _ _ read rfl).1
  refine ⟨m, m, buf, written, read, rfl, bytes 5, bytes 6, bytes 9, ?_, filled 3⟩
  exact (filled 2).trans (bytes 8)

end Qapp.Spi
