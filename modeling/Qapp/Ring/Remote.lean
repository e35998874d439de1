import Qapp.Ring.Send
import Qapp.Ring.Recv
import Qapp.Ring.Service
import Qapp.Spi.Transport

/-!
# The ring service on the QCSPI transport

Scripts of `ring_service_host.c` with every remote access carried out by the transport and
the driver below it, each `ring_transport_*` call on the memory of the slave.
-/

namespace Qapp.RingHost
open ByteMem Cyclic
open Spi (WordOp TransportErr Unfailing qcspiTransportRead qcspiTransportWrite serveWord
  serveWord_unfailing)

/-- `data` is the caller's buffer, from its first byte on. -/
structure Board where
  shared : Shared
  mem : Mem
  data : Mem

def fromBytes (bytes : List Nat) : Mem := fun i => UInt8.ofNat (bytes.getD i 0)

/-- The service hands transport errors on. -/
def Err.ofTransport : TransportErr → Err
  | .inval | .driver .inval => .inval
  | .nodev | .driver .nodev => .nodev
  | .driver .io => .io
  | .driver .busy => .busy
  | .driver .timedOut => .timedOut

def answer {α : Type} (x : α) : Except TransportErr Unit → Except Err α
  | .error err => .error (.ofTransport err)
  | .ok _ => .ok x

/-- `struct ring_descriptor` in a local variable. -/
def descOf (m : Mem) : Desc := ⟨leNat (load m 0 4), leNat (load m 4 2), leNat (load m 6 2)⟩

/-- `struct ring_control_block` -/
def blockOf (m : Mem) : CtrlBlock where
  magic := word m 0
  version := word m 4
  numRings := word m 8
  array f i := if f = .ringStatus then (m (f.offset + i)).toNat else word m (f.offset + i * 4)
  status := word m 404

/-- Calls below the service: `R` says what the driver's calls do, and no other thread holds
a mutex. Local variables hold anything before they are read into. -/
inductive Does (R : Mem → (op : WordOp) → op.Ans → Mem → Prop) :
    Board → (op : Op) → op.Ans → Board → Prop
  | own {b : Board} {op : Op} {x : op.Ans} {s : Shared} (local' : ¬op.Outside)
      (act : Act b.shared op x s) : Does R b op x { b with shared := s }
  | callback (b : Board) (x : Bool) : Does R b .callback x b
  | access (b : Board) (i : Nat) : Does R b (.access i) () b
  | modulo (b : Board) (d : Nat) : Does R b (.modulo d) () b
  | use (b : Board) (obj : Obj) (c : SyncCall) : Does R b (.use obj c) (.ok ()) b
  | workQueueInit (b : Board) (x : Except Err Unit) : Does R b .workQueueInit x b
  | workInit (b : Board) (i : Nat) (x : Except Err Unit) : Does R b (.workInit i) x b
  | workSubmit (b : Board) (i : Nat) : Does R b (.workSubmit i) () b
  | readBlock {b : Board} {addr : Nat} {ctrl m : Mem} {r : Except TransportErr Unit × Mem}
      (run : (qcspiTransportRead true addr (some ctrl) 440).Runs R b.mem r m) :
      Does R b (.readBlock addr) (answer (blockOf r.2) r.1) { b with mem := m }
  | readIdx {b : Board} {addr : Nat} {idx m : Mem} {r : Except TransportErr Unit × Mem}
      (run : (qcspiTransportRead true addr (some idx) 4).Runs R b.mem r m) :
      Does R b (.readIdx addr) (answer (leNat (load r.2 0 4)) r.1) { b with mem := m }
  | readDesc {b : Board} {addr : Nat} {desc m : Mem} {r : Except TransportErr Unit × Mem}
      (run : (qcspiTransportRead true addr (some desc) 8).Runs R b.mem r m) :
      Does R b (.readDesc addr) (answer (descOf r.2) r.1) { b with mem := m }
  | readData {b : Board} {addr len : Nat} {m : Mem} {r : Except TransportErr Unit × Mem}
      (run : (qcspiTransportRead true addr (some b.data) len).Runs R b.mem r m) :
      Does R b (.readData addr len) (answer (load r.2 0 len) r.1) { b with mem := m, data := r.2 }
  | write {b : Board} {addr : Nat} {bytes : List Nat} {m : Mem} {r : Except TransportErr Unit}
      (run : (qcspiTransportWrite true addr (some (fromBytes bytes)) bytes.length).Runs R b.mem r m) :
      Does R b (.write addr bytes) (answer () r) { b with mem := m }
  | interrupt (b : Board) (x : Except Err Unit) : Does R b .interrupt x b

theorem Does.mono {R R' : Mem → (op : WordOp) → op.Ans → Mem → Prop} {b b' : Board} {op : Op}
    {x : op.Ans} (h : Does R b op x b') (imp : ∀ m op x m', R m op x m' → R' m op x m') :
    Does R' b op x b' := by
  cases h with
  | own local' act => exact .own local' act
  | callback => exact .callback _ _
  | access i => exact .access _ i
  | modulo d => exact .modulo _ d
  | use obj c => exact .use _ obj c
  | workQueueInit => exact .workQueueInit _ _
  | workInit i => exact .workInit _ i _
  | workSubmit i => exact .workSubmit _ i
  | interrupt => exact .interrupt _ _
  | readBlock run => exact .readBlock (run.mono imp)
  | readIdx run => exact .readIdx (run.mono imp)
  | readDesc run => exact .readDesc (run.mono imp)
  | readData run => exact .readData (run.mono imp)
  | write run => exact .write (run.mono imp)

/-- The service with one cached element replaced. -/
def Shared.set (s : Shared) (f : Field) (i val : Nat) : Shared :=
  { s with cache := Function.update s.cache f (Function.update (s.cache f) i val) }

/-- A read into a variable that holds zeros, with what the variable holds then. -/
def fetch (b : Board) (addr len : Nat) : (Except TransportErr Unit × Mem) × Mem :=
  (qcspiTransportRead true addr (some fun _ => 0) len).exec serveWord b.mem

/-- The answers when no transfer and no call of the operating system fails. -/
def serve : (op : Op) → Board → op.Ans × Board
  | .initialized, b => (b.shared.initialized, b)
  | .numRings, b => (b.shared.numRings, b)
  | .ctrlBlockAddr, b => (b.shared.ctrlBlockAddr, b)
  | .cached f i, b => (b.shared.cache f i, b)
  | .setCached f i val, b => ((), { b with shared := b.shared.set f i val })
  | .saveConfig addr ctrl, b =>
    ((), { b with shared := { b.shared with
      numRings := ctrl.numRings, ctrlBlockAddr := addr, cache := ctrl.array } })
  | .setInitialized, b => ((), { b with shared := { b.shared with initialized := true } })
  | .create obj _, b => (.ok (), { b with shared := { b.shared with made := obj :: b.shared.made } })
  | .callback, b => (true, b)
  | .access _, b | .modulo _, b | .workSubmit _, b => ((), b)
  | .use _ _, b | .workQueueInit, b | .workInit _, b | .interrupt, b => (.ok (), b)
  | .readBlock addr, b =>
    let (r, m) := fetch b addr 440
    (answer (blockOf r.2) r.1, { b with mem := m })
  | .readIdx addr, b =>
    let (r, m) := fetch b addr 4
    (answer (leNat (load r.2 0 4)) r.1, { b with mem := m })
  | .readDesc addr, b =>
    let (r, m) := fetch b addr 8
    (answer (descOf r.2) r.1, { b with mem := m })
  | .readData addr len, b =>
    let (r, m) := (qcspiTransportRead true addr (some b.data) len).exec serveWord b.mem
    (answer (load r.2 0 len) r.1, { b with mem := m, data := r.2 })
  | .write addr bytes, b =>
    let (r, m) := (qcspiTransportWrite true addr (some (fromBytes bytes)) bytes.length).exec
      serveWord b.mem
    (answer () r, { b with mem := m })

theorem serve_does (late : Bool) (op : Op) (b : Board) :
    Does (Unfailing late) b op (serve op b).1 (serve op b).2 := by
  have words {α : Type} (p : Script WordOp WordOp.Ans α) (m : Mem) :
      p.Runs (Unfailing late) m (p.exec serveWord m).1 (p.exec serveWord m).2 :=
    Script.runs_exec (serveWord_unfailing late) p m
  cases op with
  | initialized => exact .own nofun (.initialized _)
  | numRings => exact .own nofun (.numRings _)
  | ctrlBlockAddr => exact .own nofun (.ctrlBlockAddr _)
  | cached f i => exact .own nofun (.cached _ f i)
  | setCached f i val => exact .own nofun (.setCached _ f i val)
  | saveConfig addr ctrl => exact .own nofun (.saveConfig _ addr ctrl)
  | setInitialized => exact .own nofun (.setInitialized _)
  | create obj limit => exact .own nofun (.create _ obj limit)
  | callback => exact .callback _ _
  | access i => exact .access _ i
  | modulo d => exact .modulo _ d
  | use obj c => exact .use _ obj c
  | workQueueInit => exact .workQueueInit _ _
  | workInit i => exact .workInit _ i _
  | workSubmit i => exact .workSubmit _ i
  | interrupt => exact .interrupt _ _
  | readBlock addr => exact .readBlock (words _ _)
  | readIdx addr => exact .readIdx (words _ _)
  | readDesc addr => exact .readDesc (words _ _)
  | readData addr len => exact .readData (words _ _)
  | write addr bytes => exact .write (words _ _)

/-! ## What follows a call -/

section After
variable {R : Mem → (op : WordOp) → op.Ans → Mem → Prop} {b b' : Board} {α : Type} {a : α}

theorem after_initialized {next : Bool → Host α}
    (run : (call .initialized >>= next).Runs (Does R) b a b') :
    (next b.shared.initialized).Runs (Does R) b a b' := by
  obtain ⟨x, t, step, rest⟩ := run.call_inv
  cases step with
  | own local' act =>
    cases act with
    | initialized => exact rest
    | outside => exact absurd ‹_› local'

theorem after_ctrlBlockAddr {next : Nat → Host α}
    (run : (call .ctrlBlockAddr >>= next).Runs (Does R) b a b') :
    (next b.shared.ctrlBlockAddr).Runs (Does R) b a b' := by
  obtain ⟨x, t, step, rest⟩ := run.call_inv
  cases step with
  | own local' act =>
    cases act with
    | ctrlBlockAddr => exact rest
    | outside => exact absurd ‹_› local'

theorem after_cached {f : Field} {i : Nat} {next : Nat → Host α}
    (run : (call (.cached f i) >>= next).Runs (Does R) b a b') :
    (next (b.shared.cache f i)).Runs (Does R) b a b' := by
  obtain ⟨x, t, step, rest⟩ := run.call_inv
  cases step with
  | own local' act =>
    cases act with
    | cached => exact rest
    | outside => exact absurd ‹_› local'

theorem after_setCached {f : Field} {i val : Nat} {next : Unit → Host α}
    (run : (call (.setCached f i val) >>= next).Runs (Does R) b a b') :
    (next ()).Runs (Does R) { b with shared := b.shared.set f i val } a b' := by
  obtain ⟨x, t, step, rest⟩ := run.call_inv
  cases step with
  | own local' act =>
    cases act with
    | setCached => exact rest
    | outside => exact absurd ‹_› local'

theorem after_access {i : Nat} {next : Unit → Host α}
    (run : (call (.access i) >>= next).Runs (Does R) b a b') :
    (next ()).Runs (Does R) b a b' := by
  obtain ⟨x, t, step, rest⟩ := run.call_inv
  cases step with
  | own local' => exact absurd trivial local'
  | access => exact rest

theorem after_modulo {d : Nat} {next : Unit → Host α}
    (run : (call (.modulo d) >>= next).Runs (Does R) b a b') :
    (next ()).Runs (Does R) b a b' := by
  obtain ⟨x, t, step, rest⟩ := run.call_inv
  cases step with
  | own local' => exact absurd trivial local'
  | modulo => exact rest

theorem after_use {obj : Obj} {c : SyncCall} {next : Except Err Unit → Host α}
    (run : (call (.use obj c) >>= next).Runs (Does R) b a b') :
    (next (.ok ())).Runs (Does R) b a b' := by
  obtain ⟨x, t, step, rest⟩ := run.call_inv
  cases step with
  | own local' => exact absurd trivial local'
  | use => exact rest

theorem after_interrupt {next : Except Err Unit → Host α}
    (run : (call .interrupt >>= next).Runs (Does R) b a b') :
    ∃ x, (next x).Runs (Does R) b a b' := by
  obtain ⟨x, t, step, rest⟩ := run.call_inv
  cases step with
  | own local' => exact absurd trivial local'
  | interrupt => exact ⟨x, rest⟩

theorem after_readIdx {addr : Nat} {next : Except Err Nat → Host α}
    (run : (call (.readIdx addr) >>= next).Runs (Does R) b a b') :
    ∃ (idx m : Mem) (r : Except TransportErr Unit × Mem),
      (qcspiTransportRead true addr (some idx) 4).Runs R b.mem r m ∧
      (next (answer (leNat (load r.2 0 4)) r.1)).Runs (Does R) { b with mem := m } a b' := by
  obtain ⟨x, t, step, rest⟩ := run.call_inv
  cases step with
  | own local' => exact absurd trivial local'
  | readIdx run => exact ⟨_, _, _, run, rest⟩

theorem after_readDesc {addr : Nat} {next : Except Err Desc → Host α}
    (run : (call (.readDesc addr) >>= next).Runs (Does R) b a b') :
    ∃ (desc m : Mem) (r : Except TransportErr Unit × Mem),
      (qcspiTransportRead true addr (some desc) 8).Runs R b.mem r m ∧
      (next (answer (descOf r.2) r.1)).Runs (Does R) { b with mem := m } a b' := by
  obtain ⟨x, t, step, rest⟩ := run.call_inv
  cases step with
  | own local' => exact absurd trivial local'
  | readDesc run => exact ⟨_, _, _, run, rest⟩

theorem after_readData {addr len : Nat} {next : Except Err (List UInt8) → Host α}
    (run : (call (.readData addr len) >>= next).Runs (Does R) b a b') :
    ∃ (m : Mem) (r : Except TransportErr Unit × Mem),
      (qcspiTransportRead true addr (some b.data) len).Runs R b.mem r m ∧
      (next (answer (load r.2 0 len) r.1)).Runs (Does R) { b with mem := m, data := r.2 } a b' := by
  obtain ⟨x, t, step, rest⟩ := run.call_inv
  cases step with
  | own local' => exact absurd trivial local'
  | readData run => exact ⟨_, _, run, rest⟩

theorem after_write {addr : Nat} {bytes : List Nat} {next : Except Err Unit → Host α}
    (run : (call (.write addr bytes) >>= next).Runs (Does R) b a b') :
    ∃ (m : Mem) (r : Except TransportErr Unit),
      (qcspiTransportWrite true addr (some (fromBytes bytes)) bytes.length).Runs R b.mem r m ∧
      (next (answer () r)).Runs (Does R) { b with mem := m } a b' := by
  obtain ⟨x, t, step, rest⟩ := run.call_inv
  cases step with
  | own local' => exact absurd trivial local'
  | write run => exact ⟨_, _, run, rest⟩

end After

/-! ## Addresses and bytes -/

def Shared.idxAddr (s : Shared) (f : Field) (ringId : Nat) : Nat :=
  (s.ctrlBlockAddr + f.offset + ringId * 4) % 2 ^ 32

def Shared.txBuf (s : Shared) (ringId wrIdx : Nat) : Nat :=
  (s.cache .txBufBase ringId + wrIdx * s.cache .txBufSize ringId) % 2 ^ 32

def Shared.txDesc (s : Shared) (ringId wrIdx : Nat) : Nat :=
  (s.cache .txDescBase ringId + wrIdx * 8) % 2 ^ 32

def Shared.rxDesc (s : Shared) (ringId rdIdx : Nat) : Nat :=
  (s.cache .rxDescBase ringId + rdIdx * 8) % 2 ^ 32

theorem load_fromBytes (bytes : List Nat) :
    load (fromBytes bytes) 0 bytes.length = bytes.map UInt8.ofNat := by
  apply List.ext_getElem (by simp)
  intro i short _
  have inside : i < bytes.length := by simpa using short
  simp [load, fromBytes, inside]

theorem map_ofNat_toNat (data : List UInt8) :
    (data.map UInt8.toNat).map UInt8.ofNat = data := by
  simp [Function.comp_def]

theorem ofNat_mod (v : Nat) : UInt8.ofNat (v % 256) = UInt8.ofNat v := by
  apply UInt8.toNat.inj
  simp

theorem map_wordBytes (v : Nat) : (wordBytes v).map UInt8.ofNat = leBytes 4 v := by
  simp [wordBytes, leBytes, ofNat_mod, Nat.div_div_eq_div_mul]

theorem map_descBytes (d : Desc) : (descBytes d).map UInt8.ofNat =
    leBytes 4 d.bufferAddr ++ leBytes 2 d.length ++ leBytes 2 d.flags := by
  rw [descBytes, List.map_append, map_wordBytes, List.append_assoc]
  simp [leBytes, ofNat_mod]

theorem load_word (old m : Mem) (a : Nat) :
    leNat (load (store old 0 (load m a 4)) 0 4) = word m a := by
  have same := load_store_same old 0 (load m a 4)
  rw [length_load] at same
  rw [same, word]

theorem descOf_store (old m : Mem) (a : Nat) : descOf (store old 0 (load m a 8)) =
    ⟨RingRx.descBuffer m a, RingRx.descLength m a, RingRx.descFlags m a⟩ := by
  have part {k n : Nat} (inside : k + n ≤ 8) :
      load (store old 0 (load m a 8)) k n = load m (a + k) n := by
    have moved := @load_store_inside old 0 (load m a 8) k n (by simpa)
    rw [Nat.zero_add, drop_load _ _ (by omega), take_load _ _ (by omega)] at moved
    exact moved
  rw [descOf, part (by decide), part (by decide), part (by decide)]
  rfl

/-! ## Pieces of the API -/

/-- The ring passes the checks every function begins with. -/
structure Shared.Open (s : Shared) (ringId : Nat) : Prop where
  initialized : s.initialized = true
  inside : ringId < maxRings
  valid : s.cache .ringStatus ringId = statusValid

section Pieces
variable {R : Mem → (op : WordOp) → op.Ans → Mem → Prop} {b b' : Board} {ringId : Nat}
  {α : Type} {a : α}

theorem checkRing_inv {x : Except Err Unit}
    (run : (checkRing ringId).Runs (Does R) b x b') :
    b = b' ∧ (b.shared.Open ringId → x = .ok ()) := by
  replace run := after_initialized run
  split at run
  next fresh =>
    obtain ⟨rfl, rfl⟩ := run.ret_inv
    exact ⟨rfl, fun passes => by simp [passes.initialized] at fresh⟩
  next =>
    split at run
    next outside =>
      obtain ⟨rfl, rfl⟩ := run.ret_inv
      exact ⟨rfl, fun passes => absurd passes.inside (Nat.not_lt.mpr outside)⟩
    next =>
      replace run := after_cached run
      split at run
      next unset =>
        obtain ⟨rfl, rfl⟩ := run.ret_inv
        exact ⟨rfl, fun passes => absurd passes.valid unset⟩
      next =>
        obtain ⟨rfl, rfl⟩ := run.ret_inv
        exact ⟨rfl, fun _ => rfl⟩

theorem after_idxAddr {f : Field} {next : Nat → Host α}
    (run : (idxAddr f ringId >>= next).Runs (Does R) b a b') :
    (next (b.shared.idxAddr f ringId)).Runs (Does R) b a b' := by
  let sum (x : Nat) : Host α := next ((x + f.offset + ringId * 4) % 2 ^ 32)
  change (sum b.shared.ctrlBlockAddr).Runs (Does R) b a b'
  exact after_ctrlBlockAddr run

theorem after_txSpace {wrIdx rdIdx : Nat} {next : Nat → Host α}
    (run : (txSpace ringId wrIdx rdIdx >>= next).Runs (Does R) b a b') :
    ∃ space, (next space).Runs (Does R) b a b' ∧ (wrIdx < b.shared.cache .txDescCount ringId →
      rdIdx < 2 ^ 32 → b.shared.cache .txDescCount ringId < 2 ^ 32 →
      space = avail (b.shared.cache .txDescCount ringId) wrIdx rdIdx) := by
  unfold txSpace at run
  split at run
  next ahead =>
    refine ⟨_, run, fun _ _ _ => ?_⟩
    rw [avail, if_pos ahead, sub32, sub32]
    omega
  next behind =>
    obtain ⟨space, t, first, rest⟩ := run.split
    obtain ⟨rfl, rfl⟩ := (after_cached first).ret_inv
    refine ⟨_, rest, fun _ _ _ => ?_⟩
    rw [avail, if_neg behind, sub32, sub32, sub32]
    omega

theorem after_rxData {wrIdx rdIdx : Nat} {next : Nat → Host α}
    (run : (rxData ringId wrIdx rdIdx >>= next).Runs (Does R) b a b') :
    ∃ filled, (next filled).Runs (Does R) b a b' ∧ (wrIdx < 2 ^ 32 →
      rdIdx < b.shared.cache .rxDescCount ringId → b.shared.cache .rxDescCount ringId < 2 ^ 32 →
      filled = RingRx.available (b.shared.cache .rxDescCount ringId) wrIdx rdIdx) := by
  unfold rxData at run
  split at run
  next ahead =>
    refine ⟨_, run, fun _ _ _ => ?_⟩
    rw [RingRx.available, if_pos ahead, sub32]
    omega
  next behind =>
    obtain ⟨filled, t, first, rest⟩ := run.split
    obtain ⟨rfl, rfl⟩ := (after_cached first).ret_inv
    refine ⟨_, rest, fun _ _ _ => ?_⟩
    rw [RingRx.available, if_neg behind, sub32, sub32]
    omega

/-- Two different indices below the count have descriptors between them. -/
theorem available_ne_zero {n wrIdx rdIdx : Nat} (apart : wrIdx ≠ rdIdx) (below : rdIdx < n) :
    RingRx.available n wrIdx rdIdx ≠ 0 := by
  unfold RingRx.available
  split <;> omega

theorem after_advance {count idx : Field} {old : Nat} {next : Nat → Host α}
    (run : (advance count idx ringId old >>= next).Runs (Does R) b a b') :
    (next ((old + 1) % 2 ^ 32 % b.shared.cache count ringId)).Runs (Does R)
      { b with shared := b.shared.set idx ringId ((old + 1) % 2 ^ 32 % b.shared.cache count ringId) }
      a b' := by
  obtain ⟨y, t, first, rest⟩ := run.split
  obtain ⟨rfl, rfl⟩ := (after_setCached (after_modulo (after_cached first))).ret_inv
  exact rest

theorem giveUp_inv {obj : Obj} {err : Err} {x : Except Err α}
    (run : (giveUp obj err).Runs (Does R) b x b') : x = .error err ∧ b' = b := by
  obtain ⟨rfl, rfl⟩ := (after_use run).ret_inv
  exact ⟨rfl, rfl⟩

end Pieces

/-! ## `ring_send` -/

section Sending
variable {R : Mem → (op : WordOp) → op.Ans → Mem → Prop} {b b' : Board} {ringId : Nat}
  {data : List UInt8}

/-- The three writes of a send that returns 0. -/
structure Wrote (R : Mem → (op : WordOp) → op.Ans → Mem → Prop) (s : Shared) (ringId : Nat)
    (data : List UInt8) (m m' : Mem) : Prop where
  writes : ∃ m₁ m₂ : Mem,
    (qcspiTransportWrite true (s.txBuf ringId (s.cache .txWrIdx ringId))
      (some (fromBytes (data.map UInt8.toNat))) data.length).Runs R m (.ok ()) m₁ ∧
    (qcspiTransportWrite true (s.txDesc ringId (s.cache .txWrIdx ringId))
      (some (fromBytes (descBytes ⟨s.txBuf ringId (s.cache .txWrIdx ringId), data.length % 2 ^ 16, 1⟩)))
      8).Runs R m₁ (.ok ()) m₂ ∧
    (qcspiTransportWrite true (s.idxAddr .txWrIdx ringId)
      (some (fromBytes (wordBytes ((s.cache .txWrIdx ringId + 1) % 2 ^ 32 %
        s.cache .txDescCount ringId)))) 4).Runs R m₂ (.ok ()) m'

theorem sendAt_wrote
    (run : (sendAt ringId data (b.shared.cache .txWrIdx ringId)).Runs (Does R) b (.ok ()) b') :
    Wrote R b.shared ringId data b.mem b'.mem := by
  obtain ⟨m₁, r, filled, rest⟩ := after_write (after_cached (after_cached run))
  cases r with
  | error err => exact absurd (giveUp_inv rest).1 nofun
  | ok u =>
    obtain ⟨m₂, r, described, rest⟩ := after_write (after_cached rest)
    cases r with
    | error err => exact absurd (giveUp_inv rest).1 nofun
    | ok u =>
      obtain ⟨m₃, r, published, rest⟩ := after_write (after_idxAddr (after_advance rest))
      cases r with
      | error err => exact absurd (giveUp_inv rest).1 nofun
      | ok u =>
        obtain ⟨_, rest⟩ := after_interrupt (after_use (after_access rest))
        obtain ⟨_, rfl⟩ := rest.ret_inv
        rw [List.length_map] at filled
        exact ⟨m₁, m₂, filled, described, published⟩

/-- The cached indices leave a descriptor free. -/
structure Shared.HasSpace (s : Shared) (ringId : Nat) : Prop where
  wr_lt : s.cache .txWrIdx ringId < s.cache .txDescCount ringId
  rd_lt : s.cache .txRdIdx ringId < s.cache .txDescCount ringId
  count_lt : s.cache .txDescCount ringId < 2 ^ 32
  space : avail (s.cache .txDescCount ringId) (s.cache .txWrIdx ringId) (s.cache .txRdIdx ringId) ≠ 0

/-- With space in the ring and no failing transfer a send returns 0. -/
theorem ringSend_returns {x : Except Err Unit} (passes : b.shared.Open ringId)
    (nonempty : data.length ≠ 0) (fits : data.length ≤ b.shared.cache .txBufSize ringId)
    (free : b.shared.HasSpace ringId)
    (taken : ¬Spi.Refused (b.shared.txBuf ringId (b.shared.cache .txWrIdx ringId))
      (data.length % 2 ^ 16))
    (run : (ringSend ringId (some data)).Runs (Does (Unfailing false)) b x b') : x = .ok () := by
  unfold ringSend at run
  obtain ⟨checked, t, first, rest⟩ := run.split
  obtain ⟨rfl, passed⟩ := checkRing_inv first
  obtain rfl := passed passes
  dsimp only at rest
  rw [if_neg nonempty] at rest
  replace rest := after_cached rest
  rw [if_neg (Nat.not_lt.mpr fits)] at rest
  obtain ⟨space, rest, counts⟩ := after_txSpace (after_cached (after_cached (after_use rest)))
  obtain rfl := counts free.wr_lt (Nat.lt_trans free.rd_lt free.count_lt) free.count_lt
  rw [if_neg free.space] at rest
  obtain ⟨m₁, r, filled, rest⟩ := after_write (after_cached (after_cached rest))
  rw [List.length_map] at filled
  obtain rfl := Spi.transport_write_returns nonempty taken filled
  obtain ⟨m₂, r, described, rest⟩ := after_write (after_cached rest)
  obtain rfl := Spi.transport_write_returns (Nat.succ_ne_zero 7)
    (Spi.not_refused (by decide) (by decide : 8 ≤ Spi.Bus.maxTransferSize)) described
  obtain ⟨m₃, r, published, rest⟩ := after_write (after_idxAddr (after_advance rest))
  obtain rfl := Spi.transport_write_returns (Nat.succ_ne_zero 3)
    (Spi.not_refused (by decide) (by decide : 4 ≤ Spi.Bus.maxTransferSize)) published
  obtain ⟨_, rest⟩ := after_interrupt (after_use (after_access rest))
  exact rest.ret_inv.1.symm

theorem ringSend_wrote (run : (ringSend ringId (some data)).Runs (Does R) b (.ok ()) b') :
    ∃ m, Wrote R b.shared ringId data m b'.mem := by
  unfold ringSend at run
  obtain ⟨checked, t, first, rest⟩ := run.split
  obtain ⟨rfl, _⟩ := checkRing_inv first
  cases checked with
  | error err => exact absurd rest.ret_inv.1 nofun
  | ok u =>
    dsimp only at rest
    split at rest
    next => exact absurd rest.ret_inv.1 nofun
    next =>
      replace rest := after_cached rest
      split at rest
      next => exact absurd rest.ret_inv.1 nofun
      next =>
        obtain ⟨space, rest, _⟩ := after_txSpace (after_cached (after_cached (after_use rest)))
        split at rest
        next =>
          obtain ⟨_, m, ⟨ret, idx⟩, _, rest⟩ := after_readIdx (after_idxAddr rest)
          cases ret with
          | error err => exact absurd (giveUp_inv rest).1 nofun
          | ok u =>
            obtain ⟨space, rest, _⟩ := after_txSpace (after_setCached rest)
            split at rest
            next => exact absurd (giveUp_inv rest).1 nofun
            next =>
              -- the refreshed index is no part of what is written
              obtain ⟨m₁, m₂, writes⟩ := (sendAt_wrote (b := { b with
                shared := b.shared.set .txRdIdx ringId (leNat (load idx 0 4)), mem := m }) rest).writes
              exact ⟨m, m₁, m₂, writes⟩
        next => exact ⟨_, sendAt_wrote rest⟩

end Sending

end Qapp.RingHost
