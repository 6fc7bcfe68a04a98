import Mathlib.Data.List.Basic
import PerfectKeys.Proofs.Spelling
import PerfectKeys.Tool.Execution

/-!
# What stands on the standard error

The tool writes one text after the other to the standard error, each with a line feed behind it:
what the filter says about itself, the events that it shows, and at the end why there is no
output, if there is none. A text is a line, unless it holds line feeds of its own. Those of the
filter may do so, and what is said about a file may, since its name can. No event does, and no
word about a name or a search.

The report of a failure begins with the name of the tool. No event can be taken for one.
-/

namespace PerfectKeys

/-! ## Lines -/

theorem splitLines_append_lineFeed (text rest : String) :
    splitLines (text ++ "\n" ++ rest) = splitLines text ++ splitLines rest := by
  have hchars : (text ++ "\n" ++ rest).toList = text.toList ++ '\n' :: rest.toList := by
    rw [String.toList_append, String.toList_append, List.append_assoc]
    rfl
  unfold splitLines splitText List.splitOn
  rw [hchars, List.splitOnP_append_cons _ _ rfl, List.map_append]

theorem splitLines_withLineFeeds (texts : List String) :
    splitLines (withLineFeeds texts) = texts.flatMap splitLines ++ [""] := by
  induction texts with
  | nil => decide
  | cons text texts ih =>
      have hcons : withLineFeeds (text :: texts) = text ++ "\n" ++ withLineFeeds texts := by
        unfold withLineFeeds
        rw [List.map_cons, String.join_cons]
      rw [hcons, splitLines_append_lineFeed, ih, List.flatMap_cons, List.append_assoc]

theorem withLineFeeds_append (texts texts' : List String) :
    withLineFeeds (texts ++ texts') = withLineFeeds texts ++ withLineFeeds texts' := by
  unfold withLineFeeds
  rw [List.map_append, String.join_append]

theorem toList_withLineFeeds_map (part : List Char) (parts : List (List Char)) :
    (withLineFeeds ((part :: parts).map String.ofList)).toList =
      ['\n'].intercalate (part :: parts) ++ ['\n'] := by
  induction parts generalizing part with
  | nil =>
      show (String.join [String.ofList part ++ "\n"]).toList = _
      rw [List.intercalate_singleton, String.toList_join, List.flatMap_singleton,
        String.toList_append, String.toList_ofList]
      rfl
  | cons part' parts ih =>
      have hcons : withLineFeeds ((part :: part' :: parts).map String.ofList) =
          String.ofList part ++ "\n" ++ withLineFeeds ((part' :: parts).map String.ofList) := by
        unfold withLineFeeds
        rw [List.map_cons, List.map_cons, String.join_cons]
      rw [hcons, String.toList_append, String.toList_append, String.toList_ofList, ih,
        List.intercalate_cons_cons, List.append_assoc (part ++ _)]
      rfl

theorem withLineFeeds_splitLines (text : String) :
    withLineFeeds (splitLines text) = text ++ "\n" := by
  have hparts : ['\n'].intercalate (text.toList.splitOn '\n') = text.toList :=
    List.intercalate_splitOn _
  unfold splitLines splitText
  cases hsplit : text.toList.splitOn '\n' with
  | nil => exact absurd hsplit (List.splitOn_ne_nil _ _)
  | cons part parts =>
      rw [← String.toList_inj, toList_withLineFeeds_map, ← hsplit, hparts, String.toList_append]
      rfl

theorem withLineFeeds_flatMap_splitLines (texts : List String) :
    withLineFeeds (texts.flatMap splitLines) = withLineFeeds texts := by
  induction texts with
  | nil => rfl
  | cons text texts ih =>
      rw [List.flatMap_cons, withLineFeeds_append, ih, withLineFeeds_splitLines]
      unfold withLineFeeds
      rw [List.map_cons, String.join_cons]

/-- The text is a line. -/
def OneLine (text : String) : Prop := '\n' ∉ text.toList

instance : DecidablePred OneLine := fun text => inferInstanceAs (Decidable ('\n' ∉ text.toList))

@[simp] theorem oneLine_append {a b : String} : OneLine (a ++ b) ↔ OneLine a ∧ OneLine b := by
  unfold OneLine
  rw [String.toList_append, List.mem_append, not_or]

theorem splitLines_of_oneLine {text : String} (h : OneLine text) : splitLines text = [text] := by
  have hchars : ∀ c ∈ text.toList, (c == '\n') = false := by
    intro c hc
    exact beq_eq_false_iff_ne.mpr (ne_of_mem_of_not_mem hc h)
  unfold splitLines splitText List.splitOn
  rw [List.splitOnP_eq_singleton hchars, List.map_singleton, String.ofList_toList]

theorem flatMap_splitLines {texts : List String} (h : ∀ text ∈ texts, OneLine text) :
    texts.flatMap splitLines = texts := by
  have hlines : texts.flatMap splitLines = texts.flatMap fun text => [text] :=
    List.flatMap_congr fun text htext => splitLines_of_oneLine (h text htext)
  rw [hlines, List.flatMap_singleton']

/-! ## Texts that are lines -/

@[simp] theorem oneLine_toString_nat (n : Nat) : OneLine (toString n) := by
  intro hmem
  have hdigits : (toString n).toList = Nat.toDigits 10 n := by
    show (Nat.repr n).toList = _
    rw [Nat.repr_eq_ofList_toDigits, String.toList_ofList]
  rw [hdigits] at hmem
  have hdigit := Nat.isDigit_of_mem_toDigits (by decide) (by decide) hmem
  cases hdigit

@[simp] theorem Mnemonic.oneLine_text (m : Mnemonic) : OneLine m.text := by
  unfold OneLine text
  rw [String.toList_ofList]
  exact fun hmem => ne_of_mem_chars hmem (by decide) rfl

@[simp] theorem Octet.oneLine_hex (o : Octet) : OneLine o.hex := by
  have hdigits : ∀ n < 16, Nat.digitChar n ≠ '\n' := by decide
  have hlt := o.toNat_lt
  have hhigh := hdigits (o.toNat / 16) (by omega)
  have hlow := hdigits (o.toNat % 16) (by omega)
  unfold OneLine hex
  rw [String.toList_ofList]
  simp [hhigh.symm, hlow.symm]

theorem MnemonicError.oneLine_message (e : MnemonicError) : OneLine e.message := by
  cases e with
  | empty => decide
  | illegalOctet octet index =>
      show OneLine ("illegal octet 0x" ++ octet.hex ++ " at position " ++ toString index ++
        " in mnemonic")
      simp +decide only [oneLine_append, Octet.oneLine_hex, oneLine_toString_nat]

theorem SearchError.oneLine_message (e : SearchError) : OneLine e.message := by
  cases e with
  | mnemonic cause => exact cause.oneLine_message
  | tooManyNames names slots =>
      show OneLine (toString names ++ " names do not fit into " ++ toString slots ++ " slots")
      simp +decide only [oneLine_append, oneLine_toString_nat]
  | duplicateName index =>
      show OneLine ("name at position " ++ toString index ++ " is a duplicate")
      simp +decide only [oneLine_append, oneLine_toString_nat]
  | exhausted start last =>
      show OneLine ("no magic value between " ++ toString start.toNat ++ " and " ++
        toString last.toNat)
      simp +decide only [oneLine_append, oneLine_toString_nat]

theorem Event.oneLine_message (e : Event) : OneLine e.message := by
  cases e with
  | keyed entry =>
      obtain ⟨role, mnemonic, key, collision⟩ := entry
      have hrole : OneLine role.text := by
        cases role with
        | zoneClass => decide
        | recordType => decide
      have hverb : OneLine (if collision then "collides at" else "at") := by
        cases collision with
        | false => decide
        | true => decide
      show OneLine (role.text ++ " " ++ mnemonic.text ++ " " ++
        (if collision then "collides at" else "at") ++ " bucket " ++ toString key.bucket.val ++
        ", slot " ++ toString key.slot.toNat)
      simp +decide only [oneLine_append, hrole, hverb, Mnemonic.oneLine_text,
        oneLine_toString_nat]
  | generated keys collisions =>
      show OneLine ("generated " ++ toString keys ++ " keys with " ++ toString collisions ++
        " collisions")
      simp +decide only [oneLine_append, oneLine_toString_nat]
  | clash magic name =>
      show OneLine ("magic " ++ toString magic.toNat ++ " collides at " ++ name.text)
      simp +decide only [oneLine_append, Mnemonic.oneLine_text, oneLine_toString_nat]
  | found magic names =>
      show OneLine ("found magic value " ++ toString magic.toNat ++ " for " ++ toString names ++
        " names")
      simp +decide only [oneLine_append, oneLine_toString_nat]
  | exhausted start last =>
      show OneLine ("no magic value in " ++ toString start.toNat ++ "..=" ++ toString last.toNat)
      simp +decide only [oneLine_append, oneLine_toString_nat]
  | printed mnemonics collisions =>
      show OneLine (toString mnemonics ++ " mnemonics, " ++ toString collisions ++ " collisions")
      simp +decide only [oneLine_append, oneLine_toString_nat]

theorem Event.oneLine_line (e : Event) : OneLine e.line := by
  have hlevel : OneLine (String.ofList (List.replicate (5 - e.level.name.length) ' ') ++
      e.level.name) := by
    cases e.level with
    | error => decide
    | warn => decide
    | info => decide
    | debug => decide
    | trace => decide
  have htarget : OneLine e.component.target := by
    cases e.component with
    | keys => decide
    | magic => decide
    | tool => decide
  show OneLine (String.ofList (List.replicate (5 - e.level.name.length) ' ') ++ e.level.name ++
    " " ++ e.component.target ++ ": " ++ e.message)
  rw [oneLine_append, oneLine_append, oneLine_append, oneLine_append]
  exact ⟨⟨⟨⟨hlevel, by decide⟩, htarget⟩, by decide⟩, e.oneLine_message⟩

/-! ## Error lines -/

/-- The line says why there is no output. -/
def IsErrorLine (line : String) : Prop := ∃ message, line = "zone-keys: " ++ message

theorem not_isErrorLine_line (e : Event) : ¬ IsErrorLine e.line := by
  have hhead : ∃ c ≠ 'z', e.line.toList.head? = some c := by
    unfold Event.line
    simp only [toString, String.toList_append]
    cases e.level with
    | error => exact ⟨'E', by decide, rfl⟩
    | warn => exact ⟨' ', by decide, rfl⟩
    | info => exact ⟨' ', by decide, rfl⟩
    | debug => exact ⟨'D', by decide, rfl⟩
    | trace => exact ⟨'T', by decide, rfl⟩
  obtain ⟨c, hc, hhead⟩ := hhead
  rintro ⟨message, hline⟩
  rw [hline, String.toList_append] at hhead
  exact hc (Option.some.inj hhead).symm

namespace LogFilter

/-- The lines of what the filter says about itself. -/
def heading (f : LogFilter) : List String := f.notices.flatMap splitLines

/-- The lines of a log: what the filter says about itself, and the events it shows. -/
def log (f : LogFilter) (events : List Event) : List String := f.heading ++ f.lines events

theorem oneLine_of_mem_lines (f : LogFilter) (events : List Event) :
    ∀ line ∈ f.lines events, OneLine line := by
  intro line hline
  obtain ⟨e, -, rfl⟩ := List.mem_map.mp hline
  exact e.oneLine_line

/-- No event can be taken for the report of a failure. -/
theorem mem_heading_of_isErrorLine (f : LogFilter) (events : List Event) :
    ∀ line ∈ f.log events, IsErrorLine line → line ∈ f.heading := by
  intro line hline herror
  rcases List.mem_append.mp hline with hline | hline
  · exact hline
  · obtain ⟨e, -, rfl⟩ := List.mem_map.mp hline
    exact absurd herror (not_isErrorLine_line e)

theorem flatMap_splitLines_log (f : LogFilter) (events : List Event) :
    (f.notices ++ f.lines events).flatMap splitLines = f.log events := by
  rw [List.flatMap_append, flatMap_splitLines (f.oneLine_of_mem_lines events)]
  rfl

theorem withLineFeeds_log (f : LogFilter) (events : List Event) :
    withLineFeeds (f.log events) = withLineFeeds (f.notices ++ f.lines events) := by
  rw [← flatMap_splitLines_log, withLineFeeds_flatMap_splitLines]

end LogFilter

/-! ## Outcomes -/

namespace Outcome

variable {x y : Logged (Except Failure Printout)}

theorem lines_of_diagnostics {o : Outcome} {texts : List String}
    (h : o.diagnostics = withLineFeeds texts) : o.lines = texts.flatMap splitLines := by
  unfold lines
  rw [h, splitLines_withLineFeeds, List.dropLast_concat]

/-- A failure leaves nothing on the standard output, and its message behind the log. -/
theorem ofLogged_of_error {failure : Failure} (h : x.value = .error failure) (f : LogFilter) :
    (ofLogged f x).status = 1 ∧ (ofLogged f x).output = "" ∧
      (ofLogged f x).diagnostics =
        withLineFeeds (f.log x.events) ++ ("zone-keys: " ++ failure.message ++ "\n") ∧
      (ofLogged f x).lines = f.log x.events ++ splitLines ("zone-keys: " ++ failure.message) := by
  have houtcome : ofLogged f x = ⟨1, "", withLineFeeds
      (f.notices ++ f.lines x.events ++ ["zone-keys: " ++ failure.message])⟩ := by
    unfold ofLogged
    rw [h]
    rfl
  refine ⟨by rw [houtcome], by rw [houtcome], ?_, ?_⟩
  · rw [houtcome, f.withLineFeeds_log]
    exact withLineFeeds_append _ _
  · rw [lines_of_diagnostics (congrArg diagnostics houtcome), List.flatMap_append,
      f.flatMap_splitLines_log, List.flatMap_singleton]

/-- A message without line feeds is the last line. -/
theorem lines_ofLogged_of_error {failure : Failure} (h : x.value = .error failure)
    (hone : OneLine failure.message) (f : LogFilter) :
    (ofLogged f x).lines = f.log x.events ++ ["zone-keys: " ++ failure.message] := by
  obtain ⟨-, -, -, hlines⟩ := ofLogged_of_error h f
  have hline : OneLine ("zone-keys: " ++ failure.message) := by
    rw [oneLine_append]
    exact ⟨by decide, hone⟩
  rw [hlines, splitLines_of_oneLine hline]

/-- Whatever is printed, there is nothing but the log on the standard error. -/
theorem ofLogged_of_ok {printout : Printout} (h : x.value = .ok printout) (f : LogFilter) :
    (ofLogged f x).status = (if printout.success then 0 else 1) ∧
      (ofLogged f x).output = printout.text ∧ (ofLogged f x).lines = f.log x.events := by
  have houtcome : ofLogged f x = ⟨if printout.success then 0 else 1, printout.text,
      withLineFeeds (f.notices ++ f.lines x.events)⟩ := by
    unfold ofLogged
    rw [h]
  refine ⟨by rw [houtcome], by rw [houtcome], ?_⟩
  rw [lines_of_diagnostics (congrArg diagnostics houtcome), f.flatMap_splitLines_log]

/-- Both streams are the same. -/
structure SameStreams (o o' : Outcome) : Prop where
  output : o.output = o'.output
  diagnostics : o.diagnostics = o'.diagnostics

theorem SameStreams.symm {o o' : Outcome} (h : o.SameStreams o') : o'.SameStreams o :=
  ⟨h.output.symm, h.diagnostics.symm⟩

end Outcome

end PerfectKeys
