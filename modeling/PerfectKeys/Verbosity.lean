import PerfectKeys.Event
import PerfectKeys.Numeral

/-!
# Verbosity

What is shown of a log is up to a filter. It may first say something about itself, and then it
lets some of the events through, each of them for what it is.

A setting makes a filter out of rules, with commas between them. The form of a rule is
`target[span{field=value}]=level`, and most of it may be left out. A rule covers the components
whose target begins with a certain text, and lets through their events down to a threshold. Where
several rules cover an event, the one with the longest text decides, then the one with the most
fields, then the last one. The words of an event are its only field, and no event stands in a span.
So a rule about a span, or about the value of a field, covers none.

A part of the setting that is no rule is reported and otherwise ignored, so every setting has a
meaning. One without any rule shows errors only.
-/

namespace PerfectKeys

/-! ## Filters -/

/-- What becomes of a log. -/
structure LogFilter where
  /-- What is said about the filter itself, before any event is shown. -/
  notices : List String
  /-- Whether an event is shown. -/
  shows : Event → Bool

/-- The lines of the events that are shown. -/
def LogFilter.lines (f : LogFilter) (events : List Event) : List String :=
  (events.filter f.shows).map Event.line

/-! ## Rules -/

/-- A field that an event has to have. -/
structure LogField where
  name : String
  /-- What the field has to hold, if that matters. -/
  value : Option String
  deriving DecidableEq

/-- What is shown of some of the events. -/
structure LogRule where
  /-- What the targets of the components begin with. -/
  target : String
  /-- The span that the events stand in, if that matters. -/
  span : Option String
  /-- The fields that the events have. -/
  fields : List LogField
  /-- The least severe level that is shown, if any is. -/
  threshold : Option Level
  deriving DecidableEq

namespace LogRule

/-- Whether the rule is about the events of the component. -/
def covers (r : LogRule) (c : Component) : Bool :=
  r.target.toList.isPrefixOf c.target.toList && r.span.isNone
    && r.fields.all fun field => field.name = "message" && field.value.isNone

/-- Whether the rule lets events of a level through. -/
def allows (r : LogRule) (level : Level) : Bool :=
  match r.threshold with
  | none => false
  | some least => decide (level ≤ least)

/-- Whether a rule is at least as specific as another that covers the same component. -/
def refines (b a : LogRule) : Bool :=
  a.target.length < b.target.length
    || a.target.length = b.target.length && a.fields.length ≤ b.fields.length

/-- The more specific one of two rules that cover the same component, where `b` is the later. -/
def moreSpecific (a : Option LogRule) (b : LogRule) : Option LogRule :=
  match a with
  | none => some b
  | some a => some (if b.refines a then b else a)

end LogRule

/-- Rules for what is shown, in the order in which they were given. -/
structure Verbosity where
  rules : List LogRule
  deriving DecidableEq

namespace Verbosity

/-- Shows all events down to a level. -/
def downTo (level : Level) : Verbosity := ⟨[⟨"", none, [], some level⟩]⟩

/-- The rule that decides about a component. -/
def ruleFor? (v : Verbosity) (c : Component) : Option LogRule :=
  (v.rules.filter (·.covers c)).foldl LogRule.moreSpecific none

/-- Whether the event is shown. Without a rule for its component it is not. -/
def shows (v : Verbosity) (e : Event) : Bool :=
  match v.ruleFor? e.component with
  | none => false
  | some r => r.allows e.level

end Verbosity

/-! ## Settings -/

/-- The threshold that a word in either case or a number stands for. Zero is nothing, and
every further number is one level more. -/
def readThreshold? (text : String) : Option (Option Level) :=
  match readWord? text with
  | some 0 => some none
  | some 1 => some (some .error)
  | some 2 => some (some .warn)
  | some 3 => some (some .info)
  | some 4 => some (some .debug)
  | some 5 => some (some .trace)
  | some _ => none
  | none =>
      match text.map Char.toLower with
      | "off" => some none
      | "error" => some (some .error)
      | "warn" => some (some .warn)
      | "info" => some (some .info)
      | "debug" => some (some .debug)
      | "trace" => some (some .trace)
      | _ => none

/-- Why a text is no rule. -/
inductive LogRuleError where
  /-- Something else should stand here. -/
  | malformed
  /-- There is no such level. -/
  | unknownLevel
  deriving DecidableEq

/-- The error in words. -/
def LogRuleError.message : LogRuleError → String
  | malformed => "invalid filter directive"
  | unknownLevel =>
      "error parsing level filter: expected one of \"off\", \"error\", \"warn\", \"info\", "
        ++ "\"debug\", \"trace\", or a number 0-5"

/-- The parts of a text between the places where a character stands. -/
def splitText (separator : Char) (text : String) : List String :=
  (text.toList.splitOn separator).map String.ofList

/-- The characters in front of the first one that ends a part, and the rest from there on. -/
def cutAt (ends : List Char) (chars : List Char) : List Char × List Char :=
  chars.span fun c => !ends.contains c

/-- The field that a text names, with its value if there is an equals sign. -/
def LogField.ofChars (chars : List Char) : LogField :=
  match cutAt ['='] chars with
  | (name, []) => ⟨String.ofList name, none⟩
  | (name, _ :: value) => ⟨String.ofList name, some (String.ofList value)⟩

namespace LogRule

/-- Whether the target or the level in front of a rule may begin with the character. -/
def opens (c : Char) : Bool := c.isAlphanum || c ∈ ['-', ':', '_']

/-- The rule with the level that is written behind the equals sign. Without one it shows
everything. -/
def withLevel (r : LogRule) (word : List Char) : Except LogRuleError LogRule :=
  if word = [] then .ok r
  else
    match readThreshold? (String.ofList word) with
    | some threshold => .ok { r with threshold := threshold }
    | none => .error .unknownLevel

/-- The rule with what follows the bracket that closes a span. -/
def withEnd (r : LogRule) : List Char → Except LogRuleError LogRule
  | [] => .ok r
  | '=' :: word => r.withLevel word
  | _ => .error .malformed

/-- The rule for a target with what follows the bracket that opens a span: the name of the span,
its fields between braces, or both. -/
def withSpan (target : String) (chars : List Char) : Except LogRuleError LogRule :=
  match cutAt [']', '\x7b'] chars with
  | (name, ']' :: rest) =>
      withEnd ⟨target, some (String.ofList name), [], some .trace⟩ rest
  | (name, '\x7b' :: rest) =>
      let span := if name = [] then none else some (String.ofList name)
      match cutAt ['\x7d'] rest with
      | (field, '\x7d' :: ']' :: rest) =>
          if field = [] then .error .malformed
          else withEnd ⟨target, span, [.ofChars field], some .trace⟩ rest
      | _ => .error .malformed
  | _ => .error .malformed

/-- Reads `target[span]=level`. A word on its own is a level if there is one of that name, and a
target otherwise. Since the commas between rules are found first, a rule has one field at most. -/
def ofText (text : String) : Except LogRuleError LogRule :=
  match text.toList with
  | [] => .error .malformed
  | '[' :: rest => withSpan "" rest
  | c :: rest =>
      if !opens c then .error .malformed
      else
        match cutAt ['=', '['] (c :: rest) with
        | (target, '[' :: rest) => withSpan (String.ofList target) rest
        | (target, _ :: word) => withLevel ⟨String.ofList target, none, [], some .trace⟩ word
        | (_, []) =>
            match readThreshold? text with
            | some threshold => .ok ⟨"", none, [], threshold⟩
            | none => .ok ⟨text, none, [], some .trace⟩

/-- A rule about a span may have fields and a level, and a level may stand alone. -/
example :
    (ofText "zone_keys[run\x7bstep=1\x7d]=info").toOption
        = some ⟨"zone_keys", some "run", [⟨"step", some "1"⟩], some .info⟩ ∧
      (ofText "[run]").toOption = some ⟨"", some "run", [], some .trace⟩ ∧
      (ofText "Off").toOption = some ⟨"", none, [], none⟩ := by
  decide +kernel

end LogRule

/-- A setting for what is shown, as it was given. -/
structure LogSetting where
  text : String
  deriving DecidableEq

namespace LogSetting

/-- The parts of the setting that are not empty, each as a rule if it is one. -/
def parts (s : LogSetting) : List (String × Except LogRuleError LogRule) :=
  ((splitText ',' s.text).filter (· ≠ "")).map fun part => (part, LogRule.ofText part)

/-- The rules of the setting. -/
def rules (s : LogSetting) : List LogRule := s.parts.filterMap (·.2.toOption)

/-- What the setting makes of the events. -/
def verbosity (s : LogSetting) : Verbosity :=
  if s.rules = [] then .downTo .error else ⟨s.rules⟩

/-- What is said about a part of the setting. Nothing is said about a rule. -/
def complaint? (part : String) : Except LogRuleError LogRule → Option String
  | .ok _ => none
  | .error e => some s!"ignoring `{part}`: {e.message}"

/-- What is said about the parts of the setting that are no rules. -/
def complaints (s : LogSetting) : List String :=
  s.parts.filterMap fun (part, result) => complaint? part result

/-- The filter that the setting stands for. -/
def filter (s : LogSetting) : LogFilter := ⟨s.complaints, s.verbosity.shows⟩

end LogSetting

end PerfectKeys
