import PerfectKeys.Proofs.Run.Failure
import PerfectKeys.Proofs.Run.Log
import PerfectKeys.Proofs.Tool.KeyMode

/-!
# The log of a derivation of keys

A derivation that succeeds logs what belongs to its report. One that fails logs the entries of the
mnemonics in front of the bad one, and does not get to the event that counts them. A request for
keys adds nothing but an event of the tool's own when it has printed the report.
-/

namespace PerfectKeys

/-! ## Derivations -/

section Generation

variable {items before after : List (Role × String)} {role : Role} {text : String}
  {e : MnemonicError}

theorem firstError_items_eq_ok_iff :
    firstError (items.map Prod.snd) = .ok () ↔
      ∀ item ∈ items, ∃ m, Mnemonic.ofString item.2 = .ok m := by
  rw [firstError_eq_ok_iff, List.forall_mem_map]

/-- Nothing behind a bad text is handled. -/
theorem leadingPairs_append_of_error
    (hbefore : ∀ item ∈ before, ∃ m, Mnemonic.ofString item.2 = .ok m)
    (htext : Mnemonic.ofString text = .error e) :
    leadingPairs (before ++ (role, text) :: after) = leadingPairs before := by
  induction before with
  | nil =>
      show leadingPairs ((role, text) :: after) = []
      rw [leadingPairs, htext]
  | cons item before ih =>
      obtain ⟨⟨m, hm⟩, hrest⟩ := List.forall_mem_cons.mp hbefore
      obtain ⟨role', text'⟩ := item
      have hm : Mnemonic.ofString text' = .ok m := hm
      rw [List.cons_append, leadingPairs, leadingPairs, hm]
      exact congrArg _ (ih hrest)

theorem firstError_append_of_error
    (hbefore : ∀ item ∈ before, ∃ m, Mnemonic.ofString item.2 = .ok m)
    (htext : Mnemonic.ofString text = .error e) :
    firstError ((before ++ (role, text) :: after).map Prod.snd) = .error e := by
  refine firstError_eq_error_iff.mpr ⟨before.map Prod.snd, text, after.map Prod.snd, ?_, ?_, htext⟩
  · rw [List.map_append, List.map_cons]
  · exact List.forall_mem_map.mpr hbefore

theorem covers_leadingPairs (h : ∀ item ∈ items, ∃ m, Mnemonic.ofString item.2 = .ok m) :
    (Report.mk (Run.start.addAll (leadingPairs items)).entries).Covers items := by
  have hcovers := covers_of_consistent (consistent_addAll consistent_start (leadingPairs items))
  rwa [List.nil_append, map_leadingPairs (firstError_items_eq_ok_iff.mpr h)] at hcovers

/-- A derivation from mnemonics logs what belongs to its report. -/
theorem exists_log_generate (h : ∀ item ∈ items, ∃ m, Mnemonic.ofString item.2 = .ok m) :
    ∃ report : Report, report.Covers items ∧ (generate items).value = .ok report ∧
      (generate items).events.map Event.record = report.log := by
  have hgenerate : generate items = (Run.start.addEach (leadingPairs items) >>= Run.finish) >>=
      fun report => pure (.ok report) := by
    rw [generate_eq, firstError_items_eq_ok_iff.mpr h, bind_assoc]
  refine ⟨_, covers_leadingPairs h, ?_, ?_⟩
  · rw [hgenerate, ← Run.value_addEach]
    rfl
  · rw [hgenerate, Logged.events_bind, Logged.events_pure, List.append_nil]
    exact Run.record_addEach_finish (leadingPairs items)

/-- A derivation that fails logs the entries in front of the bad text, and nothing else. -/
theorem exists_log_generate_of_error
    (hbefore : ∀ item ∈ before, ∃ m, Mnemonic.ofString item.2 = .ok m)
    (htext : Mnemonic.ofString text = .error e) :
    ∃ report : Report, report.Covers before ∧
      (generate (before ++ (role, text) :: after)).value = .error e ∧
      (generate (before ++ (role, text) :: after)).events.map Event.record
        = report.entries.map Entry.record := by
  have hgenerate : generate (before ++ (role, text) :: after)
      = Run.start.addEach (leadingPairs before) >>= fun _ => pure (.error e) := by
    rw [generate_eq, leadingPairs_append_of_error hbefore htext,
      firstError_append_of_error hbefore htext]
  refine ⟨_, covers_leadingPairs hbefore, ?_, ?_⟩
  · rw [hgenerate]
    rfl
  · rw [hgenerate, Logged.events_bind, Logged.events_pure, List.append_nil]
    exact Run.record_addEach_start (leadingPairs before)

/-- There is a record for each item, and none that counts them. -/
theorem steps_of_covers {report : Report} {events : List Event} (hcovers : report.Covers before)
    (hevents : events.map Event.record = report.entries.map Entry.record) :
    events.length = before.length ∧ ∀ event ∈ events, event.level ≠ .debug := by
  constructor
  · have hlength := congrArg List.length hevents
    have hitems := congrArg List.length hcovers.items_eq
    rw [List.length_map, List.length_map] at hlength
    rw [List.length_map] at hitems
    rw [hlength, hitems]
  · intro event hevent
    have hmem : event.record ∈ report.entries.map Entry.record := by
      rw [← hevents]
      exact List.mem_map_of_mem hevent
    obtain ⟨entry, -, hentry⟩ := List.mem_map.mp hmem
    have hlevel : event.level = entry.record.level := congrArg LogRecord.level hentry.symm
    rw [hlevel, level_record]
    split
    · exact fun h => nomatch h
    · exact fun h => nomatch h

end Generation

/-! ## Requests -/

namespace KeyRequest

variable {Path : Type} {r : KeyRequest Path} {s : Surroundings Path} {lists : NameLists}

theorem events_run_of_ok {report : Report} (hnames : r.Names s lists)
    (h : (generate lists.items).value = .ok report) :
    (r.run s).events = (generate lists.items).events
      ++ [.printed report.length report.collisionCount] := by
  rw [run_of_names hnames, Logged.events_bind, h]
  rfl

theorem events_run_of_error {e : MnemonicError} (hnames : r.Names s lists)
    (h : (generate lists.items).value = .error e) :
    (r.run s).events = (generate lists.items).events := by
  rw [run_of_names hnames, Logged.events_bind, h]
  exact List.append_nil _

/-- Without names there is nothing to log. -/
theorem events_run_of_no_names (h : ∀ lists, ¬ r.Names s lists) :
    (r.run s).events = [] := by
  cases hnames : r.names s with
  | error failure =>
      rw [run_of_names_eq_error hnames]
      rfl
  | ok lists => exact absurd (names_eq_ok_iff.mp hnames) (h lists)

end KeyRequest

/-- All the names in use are mnemonics. -/
theorem exists_ofString_of_mem_reference :
    ∀ item ∈ Reference.lists.items, ∃ m, Mnemonic.ofString item.2 = .ok m := by
  have hall : Reference.lists.items.all (fun item => spellsMnemonic item.2) = true := by
    decide +kernel
  intro item hitem
  have hspells := List.all_eq_true.mp hall item hitem
  unfold spellsMnemonic at hspells
  cases h : Mnemonic.ofString item.2 with
  | ok m => exact ⟨m, rfl⟩
  | error e =>
      rw [h] at hspells
      cases hspells

/--
**A run logs its entries, and how many they were.**

After any operations that end with a report, there is a record for each entry in order, a warning
for a collision and a trace for any other, and then one that counts them. The same goes for a
derivation from a list, for the names in use, and for a request, where the tool adds a record of
its own. A derivation that fails has logged the entries of the mnemonics in front of the bad text,
and does not count them.
-/
theorem run_log_exact :
    (∀ ops : List Operation,
      let x := Run.start.performAll ops >>= Run.finish
      (x.value.entries.map fun e => (e.role, e.mnemonic)) = ops.flatMap Operation.handled ∧
        x.events.map Event.record = x.value.log) ∧
    (∀ items : List (Role × String), (∀ item ∈ items, ∃ m, Mnemonic.ofString item.2 = .ok m) →
      let x := generate items
      ∃ report : Report, report.Covers items ∧ x.value = .ok report ∧
        x.events.map Event.record = report.log) ∧
    (∀ (before after : List (Role × String)) (role : Role) (text : String) (e : MnemonicError),
      (∀ item ∈ before, ∃ m, Mnemonic.ofString item.2 = .ok m) →
      Mnemonic.ofString text = .error e →
      let x := generate (before ++ (role, text) :: after)
      ∃ report : Report, report.Covers before ∧ x.value = .error e ∧
        x.events.map Event.record = report.entries.map Entry.record ∧
        x.events.length = before.length ∧ ∀ event ∈ x.events, event.level ≠ .debug) ∧
    (let x := Reference.report
      ∃ report : Report, report.Covers Reference.lists.items ∧ x.value = .ok report ∧
        x.events.map Event.record = report.log) ∧
    ∀ (Path : Type) (r : KeyRequest Path) (s : Surroundings Path),
      let x := r.run s
      (∀ lists, r.Names s lists →
        ((∀ item ∈ lists.items, ∃ m, Mnemonic.ofString item.2 = .ok m) →
          ∃ report : Report, report.Covers lists.items ∧
            x.value.map Printout.text = .ok (report.render r.format) ∧
            x.events.map Event.record = report.log ++ [⟨.info, "zone_keys",
              s!"{report.length} mnemonics, {report.collisionCount} collisions"⟩]) ∧
        ∀ e, (generate lists.items).value = .error e → x.events = (generate lists.items).events) ∧
      ((∀ lists, ¬ r.Names s lists) → x.events = []) := by
  refine ⟨fun ops => ⟨(consistent_performAll ops).entries_eq, ?_⟩, fun items h => ?_,
    fun before after role text e hbefore htext => ?_, ?_, fun Path r s => ⟨?_, ?_⟩⟩
  · rw [Run.performAll_eq, Run.record_addEach_finish, Logged.value_bind, Run.value_addEach]
    rfl
  · exact exists_log_generate h
  · obtain ⟨report, hcovers, hvalue, hevents⟩ := exists_log_generate_of_error hbefore htext
    exact ⟨report, hcovers, hvalue, hevents, steps_of_covers hcovers hevents⟩
  · exact exists_log_generate exists_ofString_of_mem_reference
  · intro lists hnames
    refine ⟨fun h => ?_, fun e he => KeyRequest.events_run_of_error hnames he⟩
    obtain ⟨report, hcovers, hvalue, hevents⟩ := exists_log_generate h
    refine ⟨report, hcovers, ?_, ?_⟩
    · rw [KeyRequest.run_of_names hnames, Logged.value_bind, hvalue]
      rfl
    · rw [KeyRequest.events_run_of_ok hnames hvalue, List.map_append, hevents]
      rfl
  · exact KeyRequest.events_run_of_no_names

/-- The second time a class comes it is a collision, and a bad text ends the log. -/
theorem run_log_exact_in :
    (generate [(.zoneClass, "IN"), (.zoneClass, "IN")]).events.map Event.record =
        [⟨.trace, "zone_keys::keys", "class IN at bucket 8, slot 36"⟩,
          ⟨.warn, "zone_keys::keys", "class IN collides at bucket 8, slot 36"⟩,
          ⟨.debug, "zone_keys::keys", "generated 2 keys with 1 collisions"⟩] ∧
      (generate [(.zoneClass, "IN"), (.recordType, "N S"), (.recordType, "A")]).events.length
        = 1 := by
  obtain ⟨-, hfine, hfails, -⟩ := run_log_exact
  let m : Mnemonic := ⟨octetsOf "IN", by decide +kernel, by decide +kernel⟩
  have hin : Mnemonic.ofString "IN" = .ok m := Mnemonic.ofString_eq_ok_iff.mpr (by decide +kernel)
  have hblank : Mnemonic.ofString "N S" = .error (.illegalOctet 0x20 1) :=
    Mnemonic.ofOctets_eq_error_iff.mpr (Or.inr ⟨0x20, 1, by decide +kernel, rfl⟩)
  have hone : ∀ item ∈ [(Role.zoneClass, "IN")], ∃ m, Mnemonic.ofString item.2 = .ok m :=
    List.forall_mem_singleton.mpr ⟨m, hin⟩
  have htwo : ∀ item ∈ [(Role.zoneClass, "IN"), (Role.zoneClass, "IN")],
      ∃ m, Mnemonic.ofString item.2 = .ok m := List.forall_mem_cons.mpr ⟨⟨m, hin⟩, hone⟩
  constructor
  · obtain ⟨report, -, hvalue, hevents⟩ := hfine _ htwo
    have hreport : (generate [(.zoneClass, "IN"), (.zoneClass, "IN")]).value = .ok
        ⟨[⟨.zoneClass, m, ⟨8, 36⟩, false⟩, ⟨.zoneClass, m, ⟨8, 36⟩, true⟩]⟩ := by decide +kernel
    rw [hreport] at hvalue
    cases hvalue
    exact hevents.trans (by decide +kernel)
  · obtain ⟨-, -, -, -, hlength, -⟩ := hfails _ [(.recordType, "A")] .recordType "N S" _ hone hblank
    exact hlength

end PerfectKeys
