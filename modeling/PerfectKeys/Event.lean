import PerfectKeys.Report

/-!
# Events

What happens along the way is recorded as events. An event is data: its level, the
component it belongs to and its wording are functions of it, so a log can be reasoned
about without reading text.
-/

namespace PerfectKeys

/-- How severe an event is, most severe first. -/
inductive Level where
  /-- Something failed. -/
  | error
  /-- Something that calls for attention. -/
  | warn
  /-- A result in brief. -/
  | info
  /-- The end of one computation. -/
  | debug
  /-- Every single step. -/
  | trace
  deriving DecidableEq

namespace Level

/-- The place of a level, counted from the most severe one. -/
def rank : Level → Nat
  | error => 0
  | warn => 1
  | info => 2
  | debug => 3
  | trace => 4

/-- A level is below another when it is at least as severe. -/
instance : LE Level := ⟨fun a b => a.rank ≤ b.rank⟩

instance : DecidableLE Level := fun a b => inferInstanceAs (Decidable (a.rank ≤ b.rank))

/-- The level in words. -/
def name : Level → String
  | error => "ERROR"
  | warn => "WARN"
  | info => "INFO"
  | debug => "DEBUG"
  | trace => "TRACE"

end Level

/-- The part of the program that an event comes from. -/
inductive Component where
  /-- The derivation of keys. -/
  | keys
  /-- The search for magic values. -/
  | magic
  /-- The command line tool. -/
  | tool
  deriving DecidableEq

/-- The name under which a component's events are logged. -/
def Component.target : Component → String
  | keys => "zone_keys::keys"
  | magic => "zone_keys::magic"
  | tool => "zone_keys"

/-- Something that happened. -/
inductive Event where
  /-- A mnemonic got its key. -/
  | keyed (entry : Entry)
  /-- A run of key derivation ended. -/
  | generated (keys collisions : Nat)
  /-- Under this magic value, the name is the first to find its slot taken. -/
  | clash (magic : UInt64) (name : Mnemonic)
  /-- This magic value keeps all the names apart. -/
  | found (magic : UInt64) (names : Nat)
  /-- No magic value of this range keeps the names apart. -/
  | exhausted (start last : UInt64)
  /-- A report was printed. -/
  | printed (mnemonics collisions : Nat)
  deriving DecidableEq

namespace Event

/-- How severe the event is. Only a collision of keys calls for attention. -/
def level : Event → Level
  | keyed entry => if entry.collision then .warn else .trace
  | generated _ _ => .debug
  | clash _ _ => .trace
  | found _ _ => .debug
  | exhausted _ _ => .debug
  | printed _ _ => .info

/-- Where the event comes from. -/
def component : Event → Component
  | keyed _ | generated _ _ => .keys
  | clash _ _ | found _ _ | exhausted _ _ => .magic
  | printed _ _ => .tool

/-- The event in words. -/
def message : Event → String
  | keyed ⟨role, mnemonic, key, collision⟩ =>
      let verb := if collision then "collides at" else "at"
      s!"{role} {mnemonic} {verb} bucket {key.bucket.val}, slot {key.slot.toNat}"
  | generated keys collisions => s!"generated {keys} keys with {collisions} collisions"
  | clash magic name => s!"magic {magic.toNat} collides at {name}"
  | found magic names => s!"found magic value {magic.toNat} for {names} names"
  | exhausted start last => s!"no magic value in {start.toNat}..={last.toNat}"
  | printed mnemonics collisions => s!"{mnemonics} mnemonics, {collisions} collisions"

/-- The event's line in a log, with the level at the right of five columns. -/
def line (e : Event) : String :=
  let level := e.level.name
  let blanks := String.ofList (List.replicate (5 - level.length) ' ')
  s!"{blanks}{level} {e.component.target}: {e.message}"

end Event

end PerfectKeys
