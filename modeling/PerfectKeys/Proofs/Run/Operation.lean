import PerfectKeys.Proofs.Spelling
import PerfectKeys.Run

/-!
# What a run is made of

A run is driven by operations: a text is pushed, a mnemonic is added, a list of texts
extends the run. Some of them fail, at a text that is no mnemonic, and the run goes on
with the next operation.

Whatever the operations are, all they ever do is to add mnemonics. The ones an operation
adds are those it *handles*: all of them, or those before the first text that is none. So
a run over any operations is the run that adds what they handle, one after the other, with
the same events.
-/

namespace PerfectKeys

/-- The mnemonics that texts spell, up to the first text that spells none. -/
def leadingMnemonics : List String → List Mnemonic
  | [] => []
  | text :: rest =>
      match Mnemonic.ofString text with
      | .ok m => m :: leadingMnemonics rest
      | .error _ => []

/-- The same of texts with their roles. -/
def leadingPairs : List (Role × String) → List (Role × Mnemonic)
  | [] => []
  | (role, text) :: rest =>
      match Mnemonic.ofString text with
      | .ok m => (role, m) :: leadingPairs rest
      | .error _ => []

/-- What is wrong with the first text that spells no mnemonic, if there is one. -/
def firstError : List String → Except MnemonicError Unit
  | [] => .ok ()
  | text :: rest =>
      match Mnemonic.ofString text with
      | .ok _ => firstError rest
      | .error e => .error e

/-- What can be asked of a run. -/
inductive Operation where
  /-- A text is to be handled. -/
  | push (role : Role) (text : String)
  /-- A mnemonic is to be handled. -/
  | add (role : Role) (m : Mnemonic)
  /-- Texts that all name the same kind of thing are to be handled. -/
  | extend (role : Role) (texts : List String)

/-- The mnemonics that the operation handles, with their roles. -/
def Operation.handled : Operation → List (Role × Mnemonic)
  | push role text => (leadingMnemonics [text]).map (role, ·)
  | add role m => [(role, m)]
  | extend role texts => (leadingMnemonics texts).map (role, ·)

/-- How the operation ends. -/
def Operation.outcome : Operation → Except MnemonicError Unit
  | push _ text => firstError [text]
  | add _ _ => .ok ()
  | extend _ texts => firstError texts

theorem leadingPairs_each (role : Role) (texts : List String) :
    leadingPairs (role.each texts) = (leadingMnemonics texts).map (role, ·) := by
  induction texts with
  | nil => rfl
  | cons text rest ih =>
      show leadingPairs ((role, text) :: role.each rest) = _
      rw [leadingPairs, leadingMnemonics, ih]
      cases Mnemonic.ofString text with
      | error e => rfl
      | ok m => rfl

theorem firstError_eq_ok_iff {texts : List String} :
    firstError texts = .ok () ↔ ∀ text ∈ texts, ∃ m, Mnemonic.ofString text = .ok m := by
  induction texts with
  | nil => exact iff_of_true rfl (fun _ h => nomatch h)
  | cons text rest ih =>
      rw [firstError, List.forall_mem_cons]
      cases h : Mnemonic.ofString text with
      | ok m => exact ih.trans (and_iff_right ⟨m, rfl⟩).symm
      | error e => exact ⟨fun h => (nomatch h), fun hall => nomatch hall.1.choose_spec⟩

theorem firstError_eq_error_iff {texts : List String} {e : MnemonicError} :
    firstError texts = .error e ↔ ∃ before text after, texts = before ++ text :: after ∧
      (∀ t ∈ before, ∃ m, Mnemonic.ofString t = .ok m) ∧ Mnemonic.ofString text = .error e := by
  constructor
  · intro h
    induction texts with
    | nil => cases h
    | cons text rest ih =>
        rw [firstError] at h
        cases htext : Mnemonic.ofString text with
        | ok m =>
            rw [htext] at h
            obtain ⟨before, first, after, rfl, hbefore, hfirst⟩ := ih h
            exact ⟨text :: before, first, after, rfl,
              List.forall_mem_cons.mpr ⟨⟨m, htext⟩, hbefore⟩, hfirst⟩
        | error e' =>
            rw [htext] at h
            cases h
            exact ⟨[], text, rest, rfl, fun t ht => (nomatch ht), htext⟩
  · rintro ⟨before, text, after, rfl, hbefore, htext⟩
    induction before with
    | nil => rw [List.nil_append, firstError, htext]
    | cons t before ih =>
        obtain ⟨⟨m, hm⟩, hrest⟩ := List.forall_mem_cons.mp hbefore
        rw [List.cons_append, firstError, hm]
        exact ih hrest

/-- Where nothing is wrong, nothing is left out. -/
theorem map_leadingPairs {items : List (Role × String)}
    (h : firstError (items.map Prod.snd) = .ok ()) :
    ((leadingPairs items).map fun p => (p.1, p.2.text)) = items := by
  induction items with
  | nil => rfl
  | cons item rest ih =>
      obtain ⟨role, text⟩ := item
      rw [List.map_cons, firstError] at h
      rw [leadingPairs]
      cases htext : Mnemonic.ofString text with
      | ok m =>
          rw [htext] at h
          rw [List.map_cons, ih h, Mnemonic.ofString_eq_ok_iff.mp htext]
      | error e =>
          rw [htext] at h
          cases h

theorem handled_push_text (p : Role × Mnemonic) :
    (Operation.push p.1 p.2.text).handled = [p] := by
  have hm : Mnemonic.ofString p.2.text = .ok p.2 := Mnemonic.ofString_eq_ok_iff.mpr rfl
  rw [Operation.handled, leadingMnemonics, hm]
  rfl

theorem flatMap_handled_push (pairs : List (Role × Mnemonic)) :
    (pairs.map fun p => Operation.push p.1 p.2.text).flatMap Operation.handled = pairs := by
  induction pairs with
  | nil => rfl
  | cons p pairs ih =>
      rw [List.map_cons, List.flatMap_cons, handled_push_text, ih]
      rfl

namespace Run

/-- Carries the operation out. If it fails, the error stands beside the run it leaves. -/
def perform (run : Run) : Operation → Logged (Run × Except MnemonicError Unit)
  | .push role text => do
      let (run, outcome) ← run.push role text
      return (run, outcome.map fun _ => ())
  | .add role m => do
      let (_, run) ← run.add role m
      return (run, .ok ())
  | .extend role texts => run.extend (role.each texts)

/-- Carries the operations out in order, whether they fail or not. -/
def performAll (run : Run) : List Operation → Logged Run
  | [] => pure run
  | op :: ops => do
      let (run, _) ← run.perform op
      run.performAll ops

/-- Adds mnemonics in order. -/
def addEach (run : Run) (pairs : List (Role × Mnemonic)) : Logged Run :=
  pairs.foldlM (fun run p => return (← run.add p.1 p.2).2) run

/-- The run after a mnemonic is added. -/
def afterAdd (run : Run) (p : Role × Mnemonic) : Run := (run.add p.1 p.2).value.2

/-- The run after mnemonics are added in order. -/
def addAll (run : Run) (pairs : List (Role × Mnemonic)) : Run := pairs.foldl afterAdd run

/-- Adding a mnemonic takes its cell and enters it, as a collision if the cell was taken. -/
theorem afterAdd_eq (run : Run) (p : Role × Mnemonic) :
    run.afterAdd p = ⟨(run.occupied.insert (Key.of p.2)).2,
      run.entries ++ [⟨p.1, p.2, Key.of p.2, decide (Key.of p.2 ∈ run.occupied)⟩]⟩ := by
  have hflag : (!(run.occupied.insert (Key.of p.2)).1) = decide (Key.of p.2 ∈ run.occupied) := by
    rw [Occupancy.fst_insert, decide_not, Bool.not_not]
  rw [← hflag]
  rfl

/-! ## Every operation adds what it handles -/

theorem push_of_ok (run : Run) (role : Role) {text : String} {m : Mnemonic}
    (h : Mnemonic.ofString text = .ok m) :
    run.push role text = run.add role m >>= fun added => pure (added.2, .ok added.1) := by
  rw [push, h]

theorem push_of_error (run : Run) (role : Role) {text : String} {e : MnemonicError}
    (h : Mnemonic.ofString text = .error e) : run.push role text = pure (run, .error e) := by
  rw [push, h]

theorem addEach_append (run : Run) (first second : List (Role × Mnemonic)) :
    run.addEach (first ++ second) = run.addEach first >>= fun run => run.addEach second :=
  List.foldlM_append

theorem value_addEach (run : Run) (pairs : List (Role × Mnemonic)) :
    (run.addEach pairs).value = run.addAll pairs := by
  induction pairs generalizing run with
  | nil => rfl
  | cons p pairs ih => exact ih (run.afterAdd p)

/-- Items are added up to the first that is no mnemonic, and that one is the error. -/
theorem extend_eq (run : Run) (items : List (Role × String)) :
    run.extend items = run.addEach (leadingPairs items) >>= fun run =>
      pure (run, firstError (items.map Prod.snd)) := by
  induction items generalizing run with
  | nil => rfl
  | cons item rest ih =>
      obtain ⟨role, text⟩ := item
      rw [extend, leadingPairs, List.map_cons, firstError]
      cases h : Mnemonic.ofString text with
      | error e =>
          rw [push_of_error run role h]
          rfl
      | ok m =>
          rw [push_of_ok run role h]
          dsimp only
          simp only [ih]
          unfold addEach
          rw [List.foldlM_cons, bind_assoc, bind_assoc]
          rfl

/-- **An operation adds what it handles.** -/
theorem perform_eq (run : Run) (op : Operation) :
    run.perform op = run.addEach op.handled >>= fun run => pure (run, op.outcome) := by
  cases op with
  | push role text =>
      rw [perform, Operation.handled, Operation.outcome, leadingMnemonics, firstError]
      cases h : Mnemonic.ofString text with
      | error e =>
          rw [push_of_error run role h]
          rfl
      | ok m =>
          rw [push_of_ok run role h]
          rfl
  | add role m => rfl
  | extend role texts =>
      have htexts : (role.each texts).map Prod.snd = texts := by
        unfold Role.each
        rw [List.map_map]
        exact List.map_id texts
      rw [perform, extend_eq, leadingPairs_each, htexts]
      rfl

/-- **A run over operations is the run that adds what they handle.** -/
theorem performAll_eq (run : Run) (ops : List Operation) :
    run.performAll ops = run.addEach (ops.flatMap Operation.handled) := by
  induction ops generalizing run with
  | nil => rfl
  | cons op ops ih =>
      rw [performAll, perform_eq, bind_assoc, List.flatMap_cons, addEach_append]
      exact congrArg _ (funext fun run => ih run)

theorem value_performAll (run : Run) (ops : List Operation) :
    (run.performAll ops).value = run.addAll (ops.flatMap Operation.handled) := by
  rw [performAll_eq, value_addEach]

end Run

end PerfectKeys
