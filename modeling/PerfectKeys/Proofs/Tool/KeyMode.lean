import PerfectKeys.Proofs.Run.Accepted
import PerfectKeys.Proofs.Tool.Diagnostics
import PerfectKeys.Proofs.Tool.InputFile
import PerfectKeys.Proofs.Tool.JsonOutput
import PerfectKeys.Proofs.Tool.Reader

/-!
# Deriving keys, from the command line to the exit status

A request for keys fails at the first thing that is wrong: the file cannot be read, it does not
hold lists of names, or one of the names is no mnemonic. Then there is nothing on the standard
output. Otherwise the report is printed, whole and whatever the flags in it are, and only the
status depends on whether the request was strict.

The log goes to the standard error, so what it shows can change nothing else. Behind it, and
nowhere else, there is what is said about a failure. Whoever looks for that finds it in the last
line, unless it holds line feeds of its own, as the name of a file may.
-/

namespace PerfectKeys

/-! ## What a report is of -/

/-- The report has an entry for each item, in order, flagged when the key had come before. -/
structure Report.Covers (report : Report) (items : List (Role × String)) : Prop where
  items_eq : (report.entries.map fun e => (e.role, e.mnemonic.text)) = items
  key_eq : ∀ e ∈ report.entries, e.key = Key.of e.mnemonic
  flagged : report.Flagged

theorem covers_of_consistent {run : Run} {pairs : List (Role × Mnemonic)}
    (h : run.Consistent pairs) :
    (Report.mk run.entries).Covers (pairs.map fun p => (p.1, p.2.text)) where
  items_eq := by
    rw [← h.entries_eq, List.map_map]
    rfl
  key_eq := h.key_eq
  flagged := h.collision_iff

theorem generate_eq (items : List (Role × String)) :
    generate items = Run.start.addEach (leadingPairs items) >>= fun run =>
      match firstError (items.map Prod.snd) with
      | .error e => pure (.error e)
      | .ok () => do
          let report ← run.finish
          return .ok report := by
  unfold generate
  rw [Run.extend_eq, bind_assoc]
  rfl

/-- **A report is determined by what it is of.** -/
theorem Report.Covers.unique {r r' : Report} {items : List (Role × String)} (h : r.Covers items)
    (h' : r'.Covers items) : r = r' := by
  have hpairs : (r.entries.map fun e => (e.role, e.mnemonic))
      = r'.entries.map fun e => (e.role, e.mnemonic) := by
    have hinj : Function.Injective fun p : Role × Mnemonic => (p.1, p.2.text) := by
      rintro ⟨role, m⟩ ⟨role', m'⟩ hp
      obtain ⟨hrole, htext⟩ := Prod.mk.inj hp
      exact Prod.ext hrole (Mnemonic.text_inj.mp htext)
    refine List.map_injective_iff.mpr hinj ?_
    rw [List.map_map, List.map_map]
    exact h.items_eq.trans h'.items_eq.symm
  rw [← Report.reportOf_eq_of_flagged h.key_eq h.flagged,
    ← Report.reportOf_eq_of_flagged h'.key_eq h'.flagged, hpairs]

/-! ## What a request comes to -/

namespace KeyRequest

variable {Path : Type} {r : KeyRequest Path} {s : Surroundings Path}

/-- The names a request is about: those in its file, or those in use. -/
inductive Names (r : KeyRequest Path) (s : Surroundings Path) : NameLists → Prop where
  | reference : r.input = none → Names r s Reference.lists
  | file {path : Path} {octets : List Octet} {lists : NameLists} :
      r.input = some path → s.contents path = .ok octets →
      NameLists.ofOctets? octets = some lists → Names r s lists

/-- What is printed is a line for each entry of the report, or the list of its entries as JSON. -/
structure Prints (r : KeyRequest Path) (report : Report) (output : String) : Prop where
  text : r.format = .text → output = String.join (report.entries.map fun e =>
    s!"{e.role.text}: {e.mnemonic.text}, key: {e.key.bucket.val}, hash: {e.key.slot.toNat}"
      ++ (if e.collision then " (collision)" else "") ++ "\n")
  json : r.format = .json →
    let value : Json := .arr (report.entries.map fun e =>
      .obj [("role", .str e.role.text), ("mnemonic", .str e.mnemonic.text),
        ("bucket", .num e.key.bucket.val), ("hash", .num e.key.slot.toNat),
        ("collided", .bool e.collision)])
    output = value.indented ++ "\n" ∧ value.Agree output value.compact

theorem prints_render (r : KeyRequest Path) (report : Report) :
    r.Prints report (report.render r.format) := by
  refine ⟨fun hformat => ?_, fun hformat => ?_⟩
  · rw [hformat]
    exact report.text_eq_join
  · rw [hformat]
    exact ⟨rfl, Json.agree_of_spaceless report.spaceless_json⟩

theorem names_eq_ok_iff {lists : NameLists} : r.names s = .ok lists ↔ r.Names s lists := by
  constructor
  · intro h
    unfold names at h
    split at h
    · next hinput =>
      cases h
      exact .reference hinput
    · next path hinput =>
      split at h
      · cases h
      · next octets hoctets =>
        split at h
        · cases h
        · next lists' hlists =>
          cases h
          exact .file hinput hoctets hlists
  · intro h
    unfold names
    cases h with
    | reference hinput => rw [hinput]
    | file hinput hoctets hlists =>
        rw [hinput]
        dsimp only
        rw [hoctets]
        dsimp only
        rw [hlists]

/-- What was computed, from the names that were read. -/
theorem run_of_names {lists : NameLists} (h : r.Names s lists) :
    r.run s = do
      match ← generate lists.items with
      | .error cause => return .error (.mnemonic cause)
      | .ok report =>
          Logged.emit (.printed report.length report.collisionCount)
          return .ok ⟨report.render r.format, !r.strict || report.isPerfect⟩ := by
  have hok := names_eq_ok_iff.mpr h
  unfold run
  split
  · next failure herror =>
    rw [hok] at herror
    cases herror
  · next lists' hlists =>
    rw [hok] at hlists
    cases hlists
    rfl

/-- Without names there is nothing to compute, or to log. -/
theorem run_of_names_eq_error {failure : Failure} (h : r.names s = .error failure) :
    r.run s = pure (.error failure) := by
  unfold run
  rw [h]

end KeyRequest

/-! ## The key mode -/

section KeyMode

variable {Path : Type} {r : KeyRequest Path} {s : Surroundings Path}

end KeyMode

end PerfectKeys
