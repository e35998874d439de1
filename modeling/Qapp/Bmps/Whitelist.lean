import Mathlib.Algebra.Ring.Int.Defs
import Mathlib.Data.Finset.Card
import Qapp.Bmps.Filter

/-!
# The whitelist as a set of ports

`cmd_set_bcmc_filter` on the four slots of `udp_whitelist_arr`, over every history of
commands. A zero is a free slot.
-/

namespace Qapp.Bmps

/-- What `getopt_long` gives in one round, the argument as `atoi` reads it. -/
inductive Opt
  | adddel (arg : Int)
  | udpport (arg : Int)
  | querry
  | invalid

/-- The loop over the options, with `en` and `port` so far. -/
def readOpts : List Opt → Int → Int → Option (Int × Int)
  | [], en, port => some (en, port)
  | .adddel arg :: opts, _, port => readOpts opts arg port
  | .udpport arg :: opts, en, _ => readOpts opts en arg
  | .querry :: opts, en, port => readOpts opts en port
  | .invalid :: _, _, _ => none

/-- The first free slot takes the port. -/
def addPort (port : Nat) : List Nat → List Nat
  | [] => []
  | slot :: slots => if slot = 0 then port :: slots else slot :: addPort port slots

def deletePort (port : Nat) (slots : List Nat) : List Nat :=
  slots.map fun slot => if slot = port then 0 else slot

/-- `cmd_set_bcmc_filter`: whether the options were valid, and the slots after it. -/
def cmdSetBcmcFilter (opts : List Opt) (slots : List Nat) : Bool × List Nat :=
  match readOpts opts 0 0 with
  | none => (false, slots)
  | some (en, port) =>
    let port := (port % 2 ^ 32).toNat
    (true, if en ≠ 0 then addPort port slots else deletePort port slots)

/-- Adding or deleting a port. -/
structure Command where
  add : Bool
  port : Nat
  valid : 0 < port ∧ port < 2 ^ 16

def Command.opts (c : Command) : List Opt :=
  [.adddel (if c.add then 1 else 0), .udpport c.port]

def Command.run (slots : List Nat) (c : Command) : List Nat := (cmdSetBcmcFilter c.opts slots).2

/-- `udp_whitelist_arr` after a history of commands. -/
def whitelistAfter (history : List Command) : List Nat := history.foldl Command.run [7777, 0, 0, 0]

/-- The set that the slots stand for. -/
def Live (history : List Command) (port : Nat) : Prop :=
  history.foldl (fun live c => if c.port = port then c.add = true else live) (port = 7777)

/-- At no time more than four ports are live. -/
def AtMostFour (history : List Command) : Prop :=
  ∀ past, past <+: history → ∀ ports : Finset Nat, (∀ port ∈ ports, Live past port) →
    ports.card ≤ 4

/-- At any time the filter accepts the live ports. -/
def AcceptsLive (history : List Command) : Prop :=
  ∀ past, past <+: history → ∀ port, whitelisted (whitelistAfter past) port ↔ Live past port

/-- A port that is added has a slot already, or there is a free one. -/
def Fits (history : List Command) : Prop :=
  ∀ past c, past ++ [c] <+: history → c.add = true →
    c.port ∈ whitelistAfter past ∨ 0 ∈ whitelistAfter past

/-! ## One command -/

variable {slots : List Nat} {port q : Nat} {c : Command} {history past : List Command}

theorem mem_whitelisted : whitelisted slots q ↔ q ≠ 0 ∧ q ∈ slots := by
  rw [whitelisted_iff]
  constructor
  · rintro ⟨_, mem, nonzero, rfl⟩
    exact ⟨nonzero, mem⟩
  · rintro ⟨nonzero, mem⟩
    exact ⟨q, mem, nonzero, rfl⟩

theorem Command.run_eq (slots : List Nat) (c : Command) :
    c.run slots = if c.add then addPort c.port slots else deletePort c.port slots := by
  have small : ((c.port : Int) % 2 ^ 32).toNat = c.port := by
    have := c.valid.2
    omega
  cases add : c.add <;>
    simp only [Command.run, cmdSetBcmcFilter, Command.opts, readOpts, small, add] <;> rfl

theorem mem_addPort (free : 0 ∈ slots) (nonzero : q ≠ 0) :
    q ∈ addPort port slots ↔ q = port ∨ q ∈ slots := by
  induction slots with
  | nil => cases free
  | cons slot slots ih =>
    rw [addPort]
    split
    next zero =>
      subst zero
      simp [nonzero]
    next taken =>
      have free : 0 ∈ slots := by
        cases free with
        | head => exact absurd rfl taken
        | tail _ mem => exact mem
      rw [List.mem_cons, List.mem_cons, ih free]
      exact or_left_comm

theorem addPort_full (full : 0 ∉ slots) : addPort port slots = slots := by
  induction slots with
  | nil => rfl
  | cons slot slots ih =>
    rw [List.mem_cons, not_or] at full
    rw [addPort, if_neg (Ne.symm full.1), ih full.2]

theorem mem_deletePort (nonzero : q ≠ 0) :
    q ∈ deletePort port slots ↔ q ≠ port ∧ q ∈ slots := by
  simp only [deletePort, List.mem_map]
  constructor
  · rintro ⟨slot, mem, eq⟩
    split at eq
    next => exact absurd eq.symm nonzero
    next other =>
      subst eq
      exact ⟨other, mem⟩
  · rintro ⟨other, mem⟩
    exact ⟨q, mem, if_neg other⟩

/-- What a command that fits does to the accepted ports. -/
theorem run_accepts (fits : c.add = true → c.port ∈ slots ∨ 0 ∈ slots) :
    whitelisted (c.run slots) q ↔ if c.port = q then c.add = true else whitelisted slots q := by
  have nonzero := Nat.ne_of_gt c.valid.1
  rw [Command.run_eq, mem_whitelisted, mem_whitelisted]
  cases add : c.add with
  | true =>
    rw [if_pos rfl]
    by_cases free : 0 ∈ slots
    · split
      next same =>
        subst same
        simp [nonzero, mem_addPort free nonzero]
      next other =>
        apply and_congr_right
        intro hq
        rw [mem_addPort free hq]
        simp [Ne.symm other]
    · rw [addPort_full free]
      split
      next same =>
        subst same
        simp [nonzero, (fits add).resolve_right free]
      next => rfl
  | false =>
    rw [if_neg Bool.false_ne_true]
    split
    next same =>
      subst same
      simp [nonzero, mem_deletePort nonzero]
    next other =>
      apply and_congr_right
      intro hq
      simp [mem_deletePort hq, Ne.symm other]

/-- A command that does not fit changes nothing. -/
theorem run_full (add : c.add = true) (full : 0 ∉ slots) : c.run slots = slots := by
  rw [Command.run_eq, if_pos add, addPort_full full]

/-! ## Histories -/

theorem whitelistAfter_snoc (past : List Command) (c : Command) :
    whitelistAfter (past ++ [c]) = c.run (whitelistAfter past) := by
  simp [whitelistAfter]

theorem live_snoc (past : List Command) (c : Command) :
    Live (past ++ [c]) q ↔ if c.port = q then c.add = true else Live past q := by
  simp [Live]

theorem live_nil : whitelisted (whitelistAfter []) q ↔ Live [] q := by
  rw [mem_whitelisted]
  simp [whitelistAfter, Live]
  omega

/-- The filter accepts the live ports at any time, exactly if every port that is added has a
slot or finds one. -/
theorem accepts_live_iff (history : List Command) : AcceptsLive history ↔ Fits history := by
  constructor
  · intro accepts past c inside add
    by_contra full
    rw [not_or] at full
    have before := accepts (past ++ [c]) inside c.port
    rw [whitelistAfter_snoc, run_full add full.2, live_snoc, if_pos rfl, mem_whitelisted] at before
    exact full.1 (before.mpr add).2
  · intro fits past
    induction past using List.reverseRecOn with
    | nil => exact fun _ _ => live_nil
    | append_singleton past c ih =>
      intro inside port
      have earlier := ih ((List.prefix_append past [c]).trans inside) port
      rw [whitelistAfter_snoc, run_accepts (fits past c inside), live_snoc]
      split
      next => rfl
      next => exact earlier

/-- A live port has been named, or is the initial one. -/
theorem live_named (live : Live history q) : q = 7777 ∨ ∃ c ∈ history, c.port = q := by
  induction history using List.reverseRecOn with
  | nil => exact .inl live
  | append_singleton past c ih =>
    rw [live_snoc] at live
    split at live
    next same => exact .inr ⟨c, by simp, same⟩
    next =>
      obtain initial | ⟨d, mem, same⟩ := ih live
      · exact .inl initial
      · exact .inr ⟨d, by simp [mem], same⟩

theorem atMostFour_of_named {ports : Finset Nat} (small : ports.card ≤ 4) (initial : 7777 ∈ ports)
    (named : ∀ c ∈ history, c.port ∈ ports) : AtMostFour history := by
  rintro past ⟨rest, rfl⟩ live all
  refine (Finset.card_le_card ?_).trans small
  intro port mem
  obtain rfl | ⟨c, hc, rfl⟩ := live_named (all port mem)
  · exact initial
  · exact named c (List.mem_append_left rest hc)

/-- An added port that is added once more takes a second slot. -/
def repeated : List Command :=
  [⟨true, 1, by decide⟩, ⟨true, 1, by decide⟩, ⟨true, 2, by decide⟩, ⟨true, 3, by decide⟩]

theorem fourth_port_dropped : ¬∀ history, AtMostFour history → AcceptsLive history := by
  intro accepts
  have few : AtMostFour repeated :=
    @atMostFour_of_named repeated {7777, 1, 2, 3} (by decide) (by decide) (by decide)
  have third := accepts repeated few repeated (List.prefix_refl _) 3
  have live : Live repeated 3 := rfl
  exact absurd (third.mpr live) (by decide)

end Qapp.Bmps
