import PerfectKeys.Proofs.Magic.Cells
import PerfectKeys.Proofs.Magic.Rejection
import PerfectKeys.Proofs.Tool.Diagnostics
import PerfectKeys.Proofs.Tool.JsonOutput
import PerfectKeys.Proofs.Tool.Reader

/-!
# Searching for a magic value, from the command line to the exit status

A request names one of three sets. The names of each are kept apart by the magic value that is in
use for it, so their examination never fails, and what a search comes to is decided by its range
alone: the least magic value in it that keeps the names apart is printed with the slots it gives,
or the ends of the range are reported. A search that is not told where to start begins at the value
in use. So it succeeds at once, however few values it may try.

What stands in front of a request in the arguments are options for keys, and the command line holds
them. Nothing that is done for the request depends on them, or on any file.
-/

namespace PerfectKeys

/-! ## The sets -/

/-- The names of a set are mnemonics, and the value in use keeps them apart. -/
theorem CodedSet.exists_names (set : CodedSet) : ∃ names : List CodedName,
    set.names = names.map CodedName.given ∧ set.scheme.KeepsApart names set.knownMagic := by
  let settings := (SearchSettings.preset.withStart set.knownMagic).withLimit 1
  have hmagic : (search set.scheme set.names settings).value.toOption.map MagicTable.magic
      = some set.knownMagic := by
    cases set
    all_goals decide +kernel
  cases hvalue : (search set.scheme set.names settings).value with
  | error e =>
      rw [hvalue] at hmagic
      cases hmagic
  | ok t =>
      rw [hvalue] at hmagic
      obtain ⟨names, hnames, -, -, -, hleast⟩ := exists_names_of_search hvalue
      rw [Option.some.inj hmagic] at hleast
      exact ⟨names, hnames, hleast.1.2⟩

namespace CodedSet

/-- The table of the names under a magic value, as lines. -/
def lines (set : CodedSet) (names : List CodedName) (magic : UInt64) : String :=
  s!"i: {names.length}, magic: {magic.toNat}\n" ++ String.join (names.map fun n =>
    s!"{n.name.text}: {set.scheme.slot magic n.name} ({n.code.toNat})\n")

/-- The table of the names under a magic value, as an object. -/
def object (set : CodedSet) (names : List CodedName) (magic : UInt64) : Json :=
  .obj [("magic", .num magic.toNat), ("entries", .arr (names.map fun n =>
    .obj [("name", .str n.name.text), ("code", .num n.code.toNat),
      ("slot", .num (set.scheme.slot magic n.name))]))]

/-- The text has a line for each slot, with the name that has the slot, if there is one. -/
def ListsSlots (set : CodedSet) (names : List CodedName) (magic : UInt64) (text : String) : Prop :=
  let used := if set = .services then "SERVICE" else "ENTRY"
  let unused := if set = .services then "UNKNOWN_SERVICE" else "UNKNOWN"
  ∃ lines : List String, text = String.join lines ∧ lines.length = set.scheme.slots ∧
    ∀ slot < set.scheme.slots,
      (∀ n ∈ names, set.scheme.slot magic n.name = slot →
        lines[slot]? = some s!"  {used}(\"{n.name.text}\", {n.code.toNat}),\n") ∧
      ((∀ n ∈ names, set.scheme.slot magic n.name ≠ slot) →
        lines[slot]? = some s!"  {unused}(),\n")

section Tables

variable {set : CodedSet} {names : List CodedName} {magic : UInt64}

theorem text_ofNames :
    (MagicTable.ofNames set.scheme magic names).text = set.lines names magic := by
  unfold MagicTable.text MagicTable.ofNames lines
  rw [List.length_map, List.map_map]
  rfl

theorem json_ofNames :
    (MagicTable.ofNames set.scheme magic names).json = set.object names magic := by
  unfold MagicTable.json MagicTable.ofNames object
  rw [List.map_map]
  rfl

theorem labels_eq (set : CodedSet) :
    set.labels = ⟨if set = .services then "SERVICE" else "ENTRY",
      if set = .services then "UNKNOWN_SERVICE" else "UNKNOWN"⟩ := by
  cases set
  all_goals rfl

theorem listsSlots_ofNames (h : set.scheme.KeepsApart names magic) :
    set.ListsSlots names magic
      ((MagicTable.ofNames set.scheme magic names).slotListing set.labels) := by
  obtain ⟨lines, htext, hlength, hlines⟩ :=
    MagicTable.exists_items (MagicTable.perfect_ofNames h) set.labels
  rw [labels_eq] at hlines
  refine ⟨lines, htext, hlength, ?_⟩
  intro slot hslot
  obtain ⟨hused, hunused⟩ := hlines slot hslot
  refine ⟨?_, ?_⟩
  · intro n hn hname
    have hentry : ⟨n.name, n.code, slot⟩
        ∈ (MagicTable.ofNames set.scheme magic names).entries := by
      rw [← hname]
      exact List.mem_map_of_mem hn
    exact hused ⟨n.name, n.code, slot⟩ hentry rfl
  · intro hnone
    exact hunused (List.forall_mem_map.mpr hnone)

end Tables

end CodedSet

/-! ## What a request comes to -/

namespace MagicRequest

/-- The first magic value to try, in exact numbers. -/
def first (r : MagicRequest) : Nat := max 1 (r.start.getD r.set.knownMagic).toNat

/-- The last magic value to try, in exact numbers. Unless told otherwise, 2³² values are tried. -/
def last (r : MagicRequest) : Nat :=
  min (r.first + max 1 (r.limit.getD 4294967296).toNat - 1) (UInt64.size - 1)

/-- The magic values in range that keep the names apart. -/
def solutions (r : MagicRequest) (names : List CodedName) : Set UInt64 :=
  {magic | r.first ≤ magic.toNat ∧ magic.toNat ≤ r.last ∧ r.set.scheme.KeepsApart names magic}

/-- What is printed is the table of the names under this magic value, in the format that is asked
for. A listing of the slots is added to lines only. -/
structure Prints (r : MagicRequest) (names : List CodedName) (magic : UInt64) (output : String) :
    Prop where
  lines : r.format = .text → r.listing = false → output = r.set.lines names magic
  listing : r.format = .text → r.listing = true → ∃ slots, r.set.ListsSlots names magic slots ∧
    output = r.set.lines names magic ++ slots
  json : r.format = .json → output = (r.set.object names magic).indented ++ "\n" ∧
    Json.Agree (r.set.object names magic) output (r.set.object names magic).compact

section Requests

variable {r : MagicRequest} {names : List CodedName} {magic : UInt64}

theorem toNat_start_settings : r.settings.start.toNat = r.first := by
  have hstart : r.settings.start
      = (SearchSettings.preset.withStart (r.start.getD r.set.knownMagic)).start := by
    unfold settings
    cases r.limit with
    | none => rfl
    | some limit => rfl
  rw [hstart]
  exact SearchSettings.toNat_clamp _ _

theorem toNat_limit_settings : r.settings.limit.toNat = max 1 (r.limit.getD 4294967296).toNat := by
  unfold settings
  cases r.limit with
  | none => rfl
  | some limit => exact SearchSettings.toNat_clamp _ _

theorem toNat_last_settings : r.settings.last.toNat = r.last := by
  rw [SearchSettings.toNat_last, toNat_start_settings, toNat_limit_settings]
  rfl

theorem solutions_eq (r : MagicRequest) (names : List CodedName) :
    r.solutions names = {m | r.settings.Allows m ∧ r.set.scheme.KeepsApart names m} := by
  unfold solutions SearchSettings.Allows
  rw [← SearchSettings.toNat_last, toNat_start_settings, toNat_last_settings]
  exact Set.ext fun m => and_assoc.symm

theorem prints_render (h : r.set.scheme.KeepsApart names magic) :
    r.Prints names magic (r.render (.ofNames r.set.scheme magic names)) := by
  unfold render
  refine ⟨fun hformat hlisting => ?_, fun hformat hlisting => ?_, fun hformat => ?_⟩
  · rw [hformat, hlisting, CodedSet.text_ofNames]
    exact String.append_empty
  · rw [hformat, hlisting, CodedSet.text_ofNames]
    exact ⟨_, CodedSet.listsSlots_ofNames h, rfl⟩
  · rw [hformat, ← CodedSet.json_ofNames]
    exact ⟨rfl, Json.agree_of_spaceless (MagicTable.spaceless_json _)⟩

/-- **The range alone decides what a request comes to.** -/
theorem value_run (hnames : r.set.names = names.map CodedName.given)
    (hknown : r.set.scheme.KeepsApart names r.set.knownMagic) :
    (∃ magic, IsLeast (r.solutions names) magic ∧
        r.run.value = .ok ⟨r.render (.ofNames r.set.scheme magic names), true⟩) ∨
      r.solutions names = ∅ ∧
        r.run.value = .error (.search (.exhausted r.settings.start r.settings.last)) := by
  unfold run
  rw [solutions_eq, Logged.value_bind, hnames]
  rcases @value_search_of_keepsApart _ _ r.settings _ hknown with
    ⟨t, hvalue, hleast⟩ | ⟨hvalue, hnone⟩
  · refine .inl ⟨t.magic, hleast, ?_⟩
    obtain ⟨others, hothers, ht, -⟩ := exists_names_of_search hvalue
    obtain rfl := (List.map_injective_iff.mpr given_injective) hothers
    rw [hvalue, ← ht]
    rfl
  · refine .inr ⟨Set.eq_empty_of_forall_notMem fun m hm => hnone m hm.1 hm.2, ?_⟩
    rw [hvalue]
    rfl

/-- Searches start at the known value, which is the least that there is to find. -/
theorem isLeast_knownMagic (hstart : r.start = none)
    (hknown : r.set.scheme.KeepsApart names r.set.knownMagic) :
    IsLeast (r.solutions names) r.set.knownMagic := by
  have hfirst : r.first = r.set.knownMagic.toNat := by
    unfold first
    rw [hstart]
    cases r.set
    all_goals rfl
  have hlt := r.set.knownMagic.toNat_lt
  refine ⟨⟨Nat.le_of_eq hfirst, ?_, hknown⟩, fun magic hmagic => ?_⟩
  · unfold last UInt64.size
    omega
  · rw [UInt64.le_iff_toNat_le, ← hfirst]
    exact hmagic.1

end Requests

end MagicRequest

/-! ## The magic mode -/

section MagicMode

variable {Path : Type} {r : MagicRequest} {names : List CodedName}

/-- Neither the options for keys nor the surroundings are looked at. -/
theorem run_magic (r : MagicRequest) (keys : KeyRequest Path) (filter : LogFilter)
    (s : Surroundings Path) :
    (CommandLine.mk keys (some r)).run filter s = .ofLogged filter r.run := rfl

/-- A listing shows in nothing but the output. -/
theorem ofLogged_listing (r : MagicRequest) (listing : Bool) (filter : LogFilter) :
    let outcome := Outcome.ofLogged filter r.run
    let other := Outcome.ofLogged filter { r with listing := listing }.run
    other.status = outcome.status ∧ other.diagnostics = outcome.diagnostics := by
  have hsettings : { r with listing := listing }.settings = r.settings := rfl
  unfold MagicRequest.run Outcome.ofLogged
  rw [hsettings]
  simp only [Logged.events_bind, Logged.value_bind]
  cases (search r.set.scheme r.set.names r.settings).value with
  | error cause => exact ⟨rfl, rfl⟩
  | ok t => exact ⟨rfl, rfl⟩

/-- In an object there is no listing. -/
theorem run_listing_of_json (h : r.format = .json) (listing : Bool) :
    { r with listing := listing }.run = r.run := by
  have hrender : { r with listing := listing }.render = r.render := by
    funext t
    unfold MagicRequest.render
    dsimp only
    rw [h]
  have hsettings : { r with listing := listing }.settings = r.settings := rfl
  unfold MagicRequest.run
  rw [hrender, hsettings]

/-- What is found first is printed. -/
theorem outcome_of_solutions (hnames : r.set.names = names.map CodedName.given)
    (hknown : r.set.scheme.KeepsApart names r.set.knownMagic)
    (h : (r.solutions names).Nonempty) (filter : LogFilter) :
    let outcome := Outcome.ofLogged filter r.run
    outcome.status = 0 ∧ outcome.lines = filter.log r.run.events ∧
      ∃ magic, IsLeast (r.solutions names) magic ∧ r.Prints names magic outcome.output := by
  intro outcome
  rcases MagicRequest.value_run hnames hknown with ⟨magic, hleast, hvalue⟩ | ⟨hempty, -⟩
  · obtain ⟨hstatus, houtput, hlines⟩ := Outcome.ofLogged_of_ok hvalue filter
    refine ⟨hstatus, hlines, magic, hleast, ?_⟩
    show r.Prints names magic (Outcome.ofLogged filter r.run).output
    rw [houtput]
    exact MagicRequest.prints_render hleast.1.2.2
  · exact absurd hempty h.ne_empty

/-- Where there is nothing to find, the ends of the range are reported. -/
theorem outcome_of_no_solution (hnames : r.set.names = names.map CodedName.given)
    (hknown : r.set.scheme.KeepsApart names r.set.knownMagic)
    (h : ¬ (r.solutions names).Nonempty) (filter : LogFilter) :
    let outcome := Outcome.ofLogged filter r.run
    outcome.status = 1 ∧ outcome.output = "" ∧
      outcome.lines = filter.log r.run.events ++
        [s!"zone-keys: no magic value between {r.first} and {r.last}"] := by
  intro outcome
  rcases MagicRequest.value_run hnames hknown with ⟨magic, hleast, -⟩ | ⟨-, hvalue⟩
  · exact absurd ⟨magic, hleast.1⟩ h
  · have hmessage : "zone-keys: " ++
        (Failure.search (.exhausted r.settings.start r.settings.last)).message
          = s!"zone-keys: no magic value between {r.first} and {r.last}" := by
      rw [← MagicRequest.toNat_start_settings, ← MagicRequest.toNat_last_settings]
      rfl
    obtain ⟨hstatus, houtput, -⟩ := Outcome.ofLogged_of_error hvalue filter
    have hlines :=
      Outcome.lines_ofLogged_of_error hvalue (SearchError.oneLine_message _) filter
    rw [hmessage] at hlines
    exact ⟨hstatus, houtput, hlines⟩

end MagicMode

/--
**What a request for a magic value does.**

No option for keys is looked at and no file is read. Every request can be made, and options for
keys in front of it can be replaced by any others. The status is zero exactly when some value
between the ends of the range keeps the names of the set apart. Then the least such value is
printed with the slots it gives, otherwise there is no output and the ends of the range are
reported behind the log. From the known magic value on, a search succeeds whatever its limit. A
listing of the slots follows the lines, and changes nothing else.
-/
theorem magic_end_to_end {Argument Path : Type} {reader : Reader Argument Path}
    (hreader : reader.Lawful) (request : MagicRequest) (keys : KeyRequest Path)
    (filter : LogFilter) (s : Surroundings Path) :
    let outcome := (CommandLine.mk keys (some request)).run filter s
    let listed := (CommandLine.mk keys (some { request with listing := true })).run filter s
    let log := filter.log request.run.events
    (CommandLine.mk keys (some request)).inputPath? = none ∧
    (∀ (others : KeyRequest Path) (elsewhere : Surroundings Path),
      (CommandLine.mk others (some request)).run filter elsewhere = outcome) ∧
    (∃ after, ∀ before others, reader.ForKeys before others →
      reader.outcome? filter s (before ++ reader.magic :: after) = some outcome) ∧
    (∀ arguments others, reader.read arguments = some ⟨others, some request⟩ →
      reader.outcome? filter s arguments = some outcome ∧ ∃ before after,
        arguments = before ++ reader.magic :: after ∧ reader.ForKeys before others ∧
        ∀ before' others', reader.ForKeys before' others' →
          reader.outcome? filter s (before' ++ reader.magic :: after) = some outcome ∧
          (request.listing = false → reader.outcome? filter s
            (before' ++ reader.magic :: reader.table :: after) = some listed)) ∧
    (∀ line ∈ log, IsErrorLine line → line ∈ filter.heading) ∧
    ∃ names : List CodedName, request.set.names = names.map CodedName.given ∧
      (outcome.status = 0 ↔ (request.solutions names).Nonempty) ∧
      ((request.solutions names).Nonempty → outcome.lines = log ∧
        ∃ magic, IsLeast (request.solutions names) magic ∧
          request.Prints names magic outcome.output) ∧
      (¬ (request.solutions names).Nonempty → outcome.status = 1 ∧ outcome.output = "" ∧
        outcome.lines = log ++
          [s!"zone-keys: no magic value between {request.first} and {request.last}"]) ∧
      (request.start = none → IsLeast (request.solutions names) request.set.knownMagic) ∧
      (request.listing = false →
        listed.status = outcome.status ∧ listed.diagnostics = outcome.diagnostics ∧
        (request.format = .json → listed.output = outcome.output) ∧
        (request.format = .text → ∀ magic, IsLeast (request.solutions names) magic →
          ∃ slots, request.set.ListsSlots names magic slots ∧
            listed.output = outcome.output ++ slots)) := by
  intro outcome listed log
  obtain ⟨names, hnames, hknown⟩ := request.set.exists_names
  have hfound (h : (request.solutions names).Nonempty) :=
    outcome_of_solutions hnames hknown h filter
  have hnone (h : ¬ (request.solutions names).Nonempty) :=
    outcome_of_no_solution hnames hknown h filter
  have hlisted := ofLogged_listing request true filter
  -- options in front of a search that can be read on its own
  have hbehind {after : List Argument} {keys' : KeyRequest Path}
      (hafter : reader.read (reader.magic :: after) = some ⟨keys', some request⟩)
      {before : List Argument} {others : KeyRequest Path} (hbefore : reader.ForKeys before others) :
      reader.outcome? filter s (before ++ reader.magic :: after) = some outcome :=
    Reader.outcome?_of_read (hreader.read_append_magic hbefore hafter) filter s
  refine ⟨rfl, fun others elsewhere => ?_, ?_, fun arguments others hread => ⟨?_, ?_⟩,
    filter.mem_heading_of_isErrorLine _, names, hnames, ⟨fun h => ?_, fun h => (hfound h).1⟩,
    fun h => (hfound h).2, hnone, fun hstart => MagicRequest.isLeast_knownMagic hstart hknown,
    fun hlisting => ⟨hlisted.1, hlisted.2, fun hformat => ?_, fun hformat magic hleast => ?_⟩⟩
  · exact (run_magic request others filter elsewhere).trans (run_magic request keys filter s).symm
  · obtain ⟨after, keys', hafter⟩ := hreader.exists_arguments request
    exact ⟨after, fun before others hbefore => hbehind hafter hbefore⟩
  · exact Reader.outcome?_of_read hread filter s
  · obtain ⟨before, after, keys', rfl, hbefore, hafter⟩ := hreader.exists_of_read_magic hread
    refine ⟨before, after, rfl, hbefore, fun before' others' hbefore' =>
      ⟨hbehind hafter hbefore', fun hlisting => ?_⟩⟩
    exact Reader.outcome?_of_read
      (hreader.read_append_magic hbefore' (hreader.read_magic_table hafter hlisting)) filter s
  · by_contra hempty
    exact Nat.zero_ne_one (h.symm.trans (hnone hempty).1)
  · show (Outcome.ofLogged filter { request with listing := true }.run).output = _
    rw [run_listing_of_json hformat]
    rfl
  · obtain ⟨-, -, least, hleast', hprints⟩ := hfound ⟨magic, hleast.1⟩
    obtain ⟨-, -, least', hleast'', hprints'⟩ :=
      outcome_of_solutions (r := { request with listing := true }) hnames hknown
        ⟨magic, hleast.1⟩ filter
    obtain rfl := eq_of_isLeast hleast hleast'
    obtain rfl := eq_of_isLeast hleast hleast''
    obtain ⟨slots, hslots, houtput⟩ := hprints'.listing hformat rfl
    refine ⟨slots, hslots, houtput.trans ?_⟩
    exact congrArg (· ++ slots) (hprints.lines hformat hlisting).symm

/-- The certificate types, behind options for keys that name a file which is not there: found with
a limit of zero, as lines and as an object, and looked for at the end of all numbers. -/
theorem magic_end_to_end_certificates :
    let filter := LogSetting.filter ⟨"zone_keys=debug"⟩
    let s : Surroundings String := ⟨id, fun _ => .error "No such file or directory", fun _ => ""⟩
    let entries := [("PKIX", 1, 11), ("SPKI", 2, 10), ("PGP", 3, 8), ("IPKIX", 4, 9),
      ("ISPKI", 5, 0), ("IPGP", 6, 14), ("ACPKIX", 7, 15), ("IACPKIX", 8, 12), ("OID", 254, 6),
      ("URI", 253, 13)]
    let answer after := Reader.standard.outcome? filter s
      (["--strict", "--format", "json", "--input", "missing.json"] ++
        "magic" :: "certificates" :: after)
    (∃ outcome, answer ["--format", "text", "--limit", "0", "--table"] = some outcome ∧
      outcome.status = 0 ∧
      outcome.lines = ["DEBUG zone_keys::magic: found magic value 98112 for 10 names"] ∧
      outcome.output = withLineFeeds ["i: 10, magic: 98112", "PKIX: 11 (1)", "SPKI: 10 (2)",
        "PGP: 8 (3)", "IPKIX: 9 (4)", "ISPKI: 0 (5)", "IPGP: 14 (6)", "ACPKIX: 15 (7)",
        "IACPKIX: 12 (8)", "OID: 6 (254)", "URI: 13 (253)", "  ENTRY(\"ISPKI\", 5),",
        "  UNKNOWN(),", "  UNKNOWN(),", "  UNKNOWN(),", "  UNKNOWN(),", "  UNKNOWN(),",
        "  ENTRY(\"OID\", 254),", "  UNKNOWN(),", "  ENTRY(\"PGP\", 3),",
        "  ENTRY(\"IPKIX\", 4),", "  ENTRY(\"SPKI\", 2),", "  ENTRY(\"PKIX\", 1),",
        "  ENTRY(\"IACPKIX\", 8),", "  ENTRY(\"URI\", 253),", "  ENTRY(\"IPGP\", 6),",
        "  ENTRY(\"ACPKIX\", 7),"]) ∧
    (∃ outcome, answer ["--format", "json", "--limit", "0"] = some outcome ∧ outcome.status = 0 ∧
      ∀ other : Json, other.Spells outcome.output ↔
        other = .obj [("magic", .num 98112), ("entries", .arr (entries.map fun e =>
          .obj [("name", .str e.1), ("code", .num e.2.1), ("slot", .num e.2.2)]))]) ∧
    ∃ outcome, answer ["--format", "text", "--start", "18446744073709551614"] = some outcome ∧
      outcome.status = 1 ∧ outcome.output = "" ∧ outcome.lines =
        ["DEBUG zone_keys::magic: no magic value in 18446744073709551614..=18446744073709551615",
          "zone-keys: no magic value between 18446744073709551614 and 18446744073709551615"] := by
  intro filter s entries answer
  let keys : KeyRequest String := ⟨some "missing.json", .json, true⟩
  let names : List CodedName := Reference.certificates.filterMap fun p =>
    (Mnemonic.ofString p.1).toOption.map fun name => ⟨name, p.2⟩
  let lined : MagicRequest := ⟨.certificates, none, some 0, true, .text⟩
  let object : MagicRequest := ⟨.certificates, none, some 0, false, .json⟩
  let late : MagicRequest := ⟨.certificates, some 18446744073709551614, none, false, .text⟩
  have hkeys : KeyArguments ["--strict", "--format", "json", "--input", "missing.json"] keys :=
    ⟨by decide, Request.ofArguments_strict_format_input .json (by decide) (by decide)⟩
  have hanswer (request : MagicRequest) {after : List String}
      (h : request.arguments = "certificates" :: after) :
      answer after = some ((CommandLine.mk keys (some request)).run filter s) := by
    have hread := Request.ofArguments_arguments hkeys request
    rw [h] at hread
    obtain ⟨-, -, -, hmade, -⟩ :=
      magic_end_to_end Reader.lawful_standard request keys filter s
    exact (hmade _ keys (Reader.read_standard_iff.mpr hread)).1
  refine ⟨⟨_, hanswer lined (by decide +kernel), ?_⟩, ⟨_, hanswer object (by decide +kernel), ?_⟩,
    _, hanswer late (by decide +kernel), ?_⟩
  · obtain ⟨-, -, -, -, -, names', hnames, hstatus, hfound, -, hknown, -⟩ :=
      magic_end_to_end Reader.lawful_standard lined keys filter s
    have hleast := hknown rfl
    obtain ⟨hlines, -⟩ := hfound ⟨_, hleast.1⟩
    exact ⟨hstatus.mpr ⟨_, hleast.1⟩, hlines.trans (by decide +kernel), by decide +kernel⟩
  · obtain ⟨-, -, -, -, -, names', hnames, hstatus, hfound, -, hknown, -⟩ :=
      magic_end_to_end Reader.lawful_standard object keys filter s
    have hcertificates : Reference.certificates = names.map CodedName.given := by decide +kernel
    obtain rfl : names' = names :=
      (List.map_injective_iff.mpr given_injective) (hnames.symm.trans hcertificates)
    have hleast := hknown rfl
    obtain ⟨-, magic, hmagic, hprints⟩ := hfound ⟨_, hleast.1⟩
    obtain rfl := eq_of_isLeast hleast hmagic
    have hentries : (names.map fun n =>
        (n.name.text, n.code.toNat, Scheme.certificates.slot 98112 n.name)) = entries := by
      decide +kernel
    refine ⟨hstatus.mpr ⟨_, hleast.1⟩, fun other => ?_⟩
    rw [← hentries, List.map_map]
    exact (hprints.json rfl).2.lines_spell other
  · obtain ⟨-, -, -, -, -, names', -, hstatus, -, hvain, -⟩ :=
      magic_end_to_end Reader.lawful_standard late keys filter s
    have hfailed : ((CommandLine.mk keys (some late)).run filter s).status ≠ 0 := by decide +kernel
    obtain ⟨hone, houtput, hlines⟩ := hvain fun h => hfailed (hstatus.mpr h)
    exact ⟨hone, houtput, hlines.trans (by decide +kernel)⟩

end PerfectKeys
