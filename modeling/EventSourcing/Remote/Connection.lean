import EventSourcing.Remote
import EventSourcing.Remote.Address

/-!
# Connecting to a remote store

A network tells which servers answer at which addresses, at each attempt to connect. An address that
cannot be read is a fault of the settings and never tried again; a server that does not answer may
do so later. Opening a store connects with patience and then has the server make itself ready.
-/

namespace EventSourcing
namespace Remote

variable {σ α : Type}

/-- The servers that answer. -/
def Network (σ : Type) : Type := Address → Option (Server σ)

/-- The network in which nobody answers. -/
def Network.silent : Network σ := fun _ => none

/-- Connects once. -/
def connect (network : Network σ) (address : String) : Except Fault (Server σ) :=
  match Address.ofString address with
  | .error e => .error (.configuration ("invalid address: " ++ e.message))
  | .ok a =>
    match network a with
    | none => .error .connect
    | some server => .ok server

/-- Repeats an action while its fault may pass, at most so many times; `turn` counts the
repetitions. -/
def retry (action : Nat → Except Fault α) : Nat → Nat → Except Fault α
  | 0, turn => action turn
  | more + 1, turn =>
    match action turn with
    | .ok x => .ok x
    | .error e => if e.transient then retry action more (turn + 1) else .error e

/-- The greatest number of repeated attempts to connect. -/
def maxRetries : Nat := 30

/-- Connects with patience to a network that may change from attempt to attempt. -/
def connectPatiently (network : Nat → Network σ) (address : String) : Except Fault (Server σ) :=
  retry (fun turn => connect (network turn) address) maxRetries 0

/-- Connects with patience and has the server make itself ready. -/
def openStore (layout : Layout) (network : Nat → Network σ) (address : String) (s : σ) :
    Except Fault (Server σ) × σ :=
  match connectPatiently network address with
  | .error e => (.error e, s)
  | .ok server =>
    let (response, s) := engine layout server .setUp s
    match response.reply with
    | .error e => (.error e, s)
    | .ok () => (.ok server, s)

/-- A fault that cannot pass ends the attempts. -/
theorem retry_of_not_transient {action : Nat → Except Fault α} {turn : Nat} {e : Fault} (n : Nat)
    (h : action turn = .error e) (ht : e.transient = false) : retry action n turn = .error e := by
  cases n <;> simp [retry, h, ht]

end Remote
end EventSourcing
