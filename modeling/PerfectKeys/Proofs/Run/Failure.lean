import Mathlib.Data.List.Basic
import PerfectKeys.Proofs.Run.Operation

/-!
# Failures leave no trace

An operation adds the mnemonics that it handles and nothing else. A push that fails handles none,
and a list of texts that fails handles those before the text at fault, like a push of each.

So a failing push can be deleted from a run, and a failing list cut off before its first bad text.
What is left cannot fail. It adds the same mnemonics in the same order, which is all there is to
cells, entries, flags, events and the report.
-/

namespace PerfectKeys

/-! ## Attempts -/

/-- What can be attempted on a run. -/
inductive Attempt where
  | operation (op : Operation)
  /-- The mnemonic with certain octets is to be handled. -/
  | pushOctets (role : Role) (octets : List Octet)

namespace Attempt

/-- The mnemonics that the attempt handles, with their roles. -/
def handled : Attempt → List (Role × Mnemonic)
  | operation op => op.handled
  | pushOctets role octets =>
      match Mnemonic.ofOctets octets with
      | .ok m => [(role, m)]
      | .error _ => []

/-- How the attempt ends. -/
def outcome : Attempt → Except MnemonicError Unit
  | operation op => op.outcome
  | pushOctets _ octets => (Mnemonic.ofOctets octets).map fun _ => ()

end Attempt

namespace Run

/-- Makes the attempt. If it fails, the error stands beside the run it leaves. -/
def attempt (run : Run) : Attempt → Logged (Run × Except MnemonicError Unit)
  | .operation op => run.perform op
  | .pushOctets role octets =>
      match Mnemonic.ofOctets octets with
      | .error e => pure (run, .error e)
      | .ok m => run.perform (.add role m)

/-- Makes the attempts in order, whether they fail or not. -/
def attemptAll (run : Run) : List Attempt → Logged Run
  | [] => pure run
  | a :: attempts => do
      let (run, _) ← run.attempt a
      run.attemptAll attempts

theorem attempt_eq (run : Run) (a : Attempt) :
    run.attempt a = run.addEach a.handled >>= fun run => pure (run, a.outcome) := by
  cases a with
  | operation op => exact run.perform_eq op
  | pushOctets role octets =>
      rw [attempt, Attempt.handled, Attempt.outcome]
      cases Mnemonic.ofOctets octets with
      | error e => rfl
      | ok m => exact run.perform_eq (.add role m)

theorem attemptAll_eq (run : Run) (attempts : List Attempt) :
    run.attemptAll attempts = run.addEach (attempts.flatMap Attempt.handled) := by
  induction attempts generalizing run with
  | nil => rfl
  | cons a attempts ih =>
      rw [attemptAll, attempt_eq, bind_assoc, List.flatMap_cons, addEach_append]
      exact congrArg _ (funext fun run => ih run)

end Run

/-! ## Lists of texts with a bad one -/

section Texts

variable {text : String} {e : MnemonicError}

theorem exists_map_text_eq {texts : List String}
    (h : ∀ t ∈ texts, ∃ m, Mnemonic.ofString t = .ok m) :
    ∃ ms : List Mnemonic, texts = ms.map Mnemonic.text := by
  induction texts with
  | nil => exact ⟨[], rfl⟩
  | cons text rest ih =>
      obtain ⟨m, hm⟩ := h text List.mem_cons_self
      obtain ⟨ms, rfl⟩ := ih fun t ht => h t (List.mem_cons_of_mem text ht)
      exact ⟨m :: ms, by rw [Mnemonic.ofString_eq_ok_iff.mp hm, List.map_cons]⟩

theorem leadingMnemonics_append (ms : List Mnemonic) (rest : List String) :
    leadingMnemonics (ms.map Mnemonic.text ++ rest) = ms ++ leadingMnemonics rest := by
  induction ms with
  | nil => rfl
  | cons m ms ih =>
      have hm : Mnemonic.ofString m.text = .ok m := Mnemonic.ofString_eq_ok_iff.mpr rfl
      rw [List.map_cons, List.cons_append, leadingMnemonics, hm]
      exact congrArg _ ih

/-- A list of texts fails at the first that is no mnemonic, after a push of each before it. -/
theorem Run.perform_extend_of_error (run : Run) (role : Role) {texts : List String} {k : Nat}
    (ht : texts[k]? = some text) (he : Mnemonic.ofString text = .error e)
    (hbefore : ∀ t ∈ texts.take k, ∃ m, Mnemonic.ofString t = .ok m) :
    let pushes := run.performAll ((texts.take k).map (.push role))
    run.perform (.extend role texts) = (pushes >>= fun run => pure (run, .error e)) ∧
      run.perform (.extend role (texts.take k)) = (pushes >>= fun run => pure (run, .ok ())) := by
  intro pushes
  obtain ⟨hk, rfl⟩ := List.getElem?_eq_some_iff.mp ht
  obtain ⟨ms, hms⟩ := exists_map_text_eq hbefore
  have hpushes : pushes = run.addEach (ms.map (role, ·)) := by
    have hhandled := flatMap_handled_push (ms.map (role, ·))
    rw [List.map_map] at hhandled
    show run.performAll ((texts.take k).map (.push role)) = _
    rw [hms, performAll_eq, List.map_map]
    exact congrArg run.addEach hhandled
  have hsplit : texts = texts.take k ++ texts[k] :: texts.drop (k + 1) := by
    rw [← List.drop_eq_getElem_cons hk, List.take_append_drop]
  have hcut : leadingMnemonics (texts.take k) = ms := by
    have h := leadingMnemonics_append ms []
    rw [← hms, List.append_nil] at h
    exact h.trans (List.append_nil ms)
  have hwhole : leadingMnemonics texts = ms := by
    have hstop : leadingMnemonics (texts[k] :: texts.drop (k + 1)) = [] := by
      rw [leadingMnemonics, he]
    rw [hsplit, hms, leadingMnemonics_append, hstop, List.append_nil]
  have hcutError := firstError_eq_ok_iff.mpr hbefore
  have hwholeError := firstError_eq_error_iff.mpr ⟨_, _, _, hsplit, hbefore, he⟩
  constructor
  · rw [perform_eq, Operation.handled, Operation.outcome, hwhole, hwholeError, hpushes]
  · rw [perform_eq, Operation.handled, Operation.outcome, hcut, hcutError, hpushes]

end Texts

/-! ## Runs without their failures -/

/-- The text spells a mnemonic. -/
def spellsMnemonic (text : String) : Bool := (Mnemonic.ofString text).toOption.isSome

/-- What is left of an attempt without its failure: nothing of a push that fails, and the texts
before the bad one of a list that fails. -/
def Attempt.trimmed : Attempt → List Attempt
  | operation (.push role text) =>
      if spellsMnemonic text then [operation (.push role text)] else []
  | operation (.add role m) => [operation (.add role m)]
  | operation (.extend role texts) => [operation (.extend role (texts.takeWhile spellsMnemonic))]
  | pushOctets role octets =>
      match Mnemonic.ofOctets octets with
      | .ok _ => [pushOctets role octets]
      | .error _ => []

theorem takeWhile_spellsMnemonic (texts : List String) :
    leadingMnemonics (texts.takeWhile spellsMnemonic) = leadingMnemonics texts ∧
      firstError (texts.takeWhile spellsMnemonic) = .ok () ∧
      (firstError texts = .ok () → texts.takeWhile spellsMnemonic = texts) := by
  induction texts with
  | nil => exact ⟨rfl, rfl, fun _ => rfl⟩
  | cons text rest ih =>
      rw [List.takeWhile_cons, spellsMnemonic, leadingMnemonics, firstError]
      cases h : Mnemonic.ofString text with
      | error e =>
          refine ⟨rfl, rfl, fun hok => ?_⟩
          cases hok
      | ok m =>
          obtain ⟨hleading, hfirst, hwhole⟩ := ih
          show leadingMnemonics (text :: rest.takeWhile spellsMnemonic) = _ ∧
            firstError (text :: rest.takeWhile spellsMnemonic) = _ ∧
            (firstError rest = _ → text :: rest.takeWhile spellsMnemonic = _)
          rw [leadingMnemonics, firstError, h]
          exact ⟨congrArg _ hleading, hfirst, fun hok => congrArg _ (hwhole hok)⟩

namespace Attempt

/-- What is left handles the same and does not fail. Without a failure everything is left. -/
theorem trimmed_spec (a : Attempt) :
    a.trimmed.flatMap handled = a.handled ∧ (∀ b ∈ a.trimmed, b.outcome = .ok ()) ∧
      (a.outcome = .ok () → a.trimmed = [a]) := by
  rcases a with (⟨role, text⟩ | ⟨role, m⟩ | ⟨role, texts⟩) | ⟨role, octets⟩
  · cases h : Mnemonic.ofString text with
    | error e =>
        simp [trimmed, handled, outcome, Operation.handled, Operation.outcome, leadingMnemonics,
          firstError, spellsMnemonic, h, Except.toOption]
    | ok m =>
        simp [trimmed, outcome, Operation.outcome, firstError, spellsMnemonic, h, Except.toOption]
  · simp [trimmed, outcome, Operation.outcome]
  · obtain ⟨hleading, hfirst, hwhole⟩ := takeWhile_spellsMnemonic texts
    refine ⟨?_, ?_, fun hok => ?_⟩
    · rw [trimmed, List.flatMap_singleton, handled, handled, Operation.handled, Operation.handled,
        hleading]
    · rw [trimmed, List.forall_mem_singleton]
      exact hfirst
    · rw [trimmed, hwhole hok]
  · cases h : Mnemonic.ofOctets octets with
    | error e => simp [trimmed, handled, outcome, h, Except.map]
    | ok m => simp [trimmed, outcome, h, Except.map]

theorem flatMap_handled_flatMap_trimmed (attempts : List Attempt) :
    (attempts.flatMap trimmed).flatMap handled = attempts.flatMap handled := by
  rw [List.flatMap_assoc]
  exact List.flatMap_congr fun a _ => a.trimmed_spec.1

end Attempt

/--
**Failures leave no trace.**

On any run, a push of a text or of octets that are no mnemonic returns the error, leaves the cells
and the entries as they are, and records nothing. A list of texts returns the error of its first
bad text, and leaves what the texts before that one leave, given as a list or pushed one by one.

So a run does not change when the failing pushes among its attempts are deleted and the failing
lists are cut off before their first bad text. Then nothing in it fails, and it goes through
the same entries, has the same events and ends in the same report.
-/
theorem failure_leaves_no_trace :
    (∀ (run : Run) (role : Role) (text : String) (e : MnemonicError),
      Mnemonic.ofString text = .error e →
      (run.attempt (.operation (.push role text))).value = (run, .error e) ∧
        (run.attempt (.operation (.push role text))).events = []) ∧
    (∀ (run : Run) (role : Role) (octets : List Octet) (e : MnemonicError),
      Mnemonic.ofOctets octets = .error e →
      (run.attempt (.pushOctets role octets)).value = (run, .error e) ∧
        (run.attempt (.pushOctets role octets)).events = []) ∧
    (∀ (run : Run) (role : Role) (texts : List String) (k : Nat) (text : String)
      (e : MnemonicError), texts[k]? = some text → Mnemonic.ofString text = .error e →
      (∀ earlier ∈ texts.take k, ∃ m, Mnemonic.ofString earlier = .ok m) →
      let whole := run.perform (.extend role texts)
      let cut := run.perform (.extend role (texts.take k))
      let pushes := run.performAll ((texts.take k).map (.push role))
      whole.value = (cut.value.1, .error e) ∧ whole.events = cut.events ∧
        cut.value = (pushes.value, .ok ()) ∧ cut.events = pushes.events) ∧
    (∀ (run : Run) (attempts : List Attempt),
      let kept := attempts.flatMap Attempt.trimmed
      run.attemptAll kept = run.attemptAll attempts ∧
        (run.attemptAll kept >>= Run.finish) = (run.attemptAll attempts >>= Run.finish)) ∧
    ∀ a : Attempt, (∀ b ∈ a.trimmed, ∀ run : Run, (run.attempt b).value.2 = .ok ()) ∧
      ((∃ run : Run, (run.attempt a).value.2 = .ok ()) → a.trimmed = [a]) := by
  have houtcome (run : Run) (a : Attempt) : (run.attempt a).value.2 = a.outcome := by
    rw [Run.attempt_eq]
    rfl
  refine ⟨fun run role text e he => ?_, fun run role octets e he => ?_, ?_, ?_, fun a => ⟨?_, ?_⟩⟩
  · rw [Run.attempt, Run.perform, Run.push_of_error run role he]
    exact ⟨rfl, rfl⟩
  · rw [Run.attempt, he]
    exact ⟨rfl, rfl⟩
  · intro run role texts k text e ht he hbefore whole cut pushes
    obtain ⟨hwhole, hcut⟩ := run.perform_extend_of_error role ht he hbefore
    have hwhole : whole = pushes >>= fun run => pure (run, .error e) := hwhole
    have hcut : cut = pushes >>= fun run => pure (run, .ok ()) := hcut
    rw [hwhole, hcut]
    simp only [Logged.value_bind, Logged.events_bind, Logged.value_pure, Logged.events_pure,
      List.append_nil, and_self]
  · intro run attempts kept
    have hkept : run.attemptAll kept = run.attemptAll attempts := by
      rw [Run.attemptAll_eq, Run.attemptAll_eq, Attempt.flatMap_handled_flatMap_trimmed]
    exact ⟨hkept, by rw [hkept]⟩
  · intro b hb run
    rw [houtcome]
    exact a.trimmed_spec.2.1 b hb
  · rintro ⟨run, hrun⟩
    rw [houtcome] at hrun
    exact a.trimmed_spec.2.2 hrun

/-- A class and a record type, with three failures between and behind them. -/
theorem failure_leaves_no_trace_mx :
    let attempts := [Attempt.operation (.push .zoneClass "IN"), .operation (.push .zoneClass ""),
      .operation (.extend .recordType ["MX", "N S", "A"]), .pushOctets .recordType [0x4D, 0xFF]]
    let kept := attempts.flatMap Attempt.trimmed
    (Run.start.attempt (.operation (.push .zoneClass ""))).value = (Run.start, .error .empty) ∧
      (Run.start.attempt (.pushOctets .recordType [0x4D, 0xFF])).value
        = (Run.start, .error (.illegalOctet 0xFF 1)) ∧
      (Run.start.perform (.extend .recordType ["MX", "N S", "A"])).value
        = ((Run.start.perform (.extend .recordType ["MX"])).value.1,
          .error (.illegalOctet 0x20 1)) ∧
      kept.length = 2 ∧ Run.start.attemptAll kept = Run.start.attemptAll attempts := by
  intro attempts kept
  have hempty : Mnemonic.ofString "" = .error .empty :=
    Mnemonic.ofOctets_eq_error_iff.mpr (Or.inl ⟨by decide +kernel, rfl⟩)
  have hoctet : Mnemonic.ofOctets [0x4D, 0xFF] = .error (.illegalOctet 0xFF 1) :=
    Mnemonic.ofOctets_eq_error_iff.mpr (Or.inr ⟨0xFF, 1, by decide +kernel, rfl⟩)
  have hblank : Mnemonic.ofString "N S" = .error (.illegalOctet 0x20 1) :=
    Mnemonic.ofOctets_eq_error_iff.mpr (Or.inr ⟨0x20, 1, by decide +kernel, rfl⟩)
  have hbefore : ∀ t ∈ ["MX", "N S", "A"].take 1, ∃ m, Mnemonic.ofString t = .ok m := by
    intro t ht
    obtain rfl := List.mem_singleton.mp ht
    exact ⟨⟨octetsOf "MX", by decide +kernel, by decide +kernel⟩,
      Mnemonic.ofString_eq_ok_iff.mpr (by decide +kernel)⟩
  obtain ⟨hpush, hoctets, hextend, hall, -⟩ := failure_leaves_no_trace
  exact ⟨(hpush Run.start .zoneClass "" .empty hempty).1,
    (hoctets Run.start .recordType [0x4D, 0xFF] (.illegalOctet 0xFF 1) hoctet).1,
    (hextend Run.start .recordType ["MX", "N S", "A"] 1 "N S" (.illegalOctet 0x20 1) rfl hblank
      hbefore).1, by decide +kernel, (hall Run.start attempts).1⟩

end PerfectKeys
