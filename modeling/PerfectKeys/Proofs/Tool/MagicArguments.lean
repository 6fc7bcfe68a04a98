import PerfectKeys.Proofs.Json.Lexing
import PerfectKeys.Proofs.Tool.Arguments

/-!
# Asking for a magic value

Behind the word `magic` there is the name of a set with options, each given once at most. In front
of it there may be options for keys. They have to be whole, since an option that lacks its value
would take the word for it. That is all that matters about them: the words behind them make the
same request without them.
-/

namespace PerfectKeys

/-! ## One word -/

namespace Word

section Gives

variable {α : Type} {word : Word} {words : List Word} {name : String}
  {read? : String → Option α} {value : α}

/-- One of the words gives this value to the option of this name. -/
def Gives (words : List Word) (name : String) (read? : String → Option α) (value : α) : Prop :=
  ∃ text, .long name (some text) ∈ words ∧ read? text = some value

theorem not_gives_nil : ¬ Gives [] name read? value := by
  rintro ⟨text, hmem, -⟩
  cases hmem

theorem gives_cons_iff : Gives (word :: words) name read? value ↔
    (∃ text, word = .long name (some text) ∧ read? text = some value) ∨
      Gives words name read? value := by
  unfold Gives
  simp only [List.mem_cons, or_and_right, exists_or, eq_comm (a := word)]

/-- Other words say nothing about the option. -/
theorem gives_cons_of_ne (h : ∀ text, word ≠ .long name (some text)) :
    Gives (word :: words) name read? value ↔ Gives words name read? value := by
  rw [gives_cons_iff]
  exact or_iff_right fun ⟨text, hword, _⟩ => h text hword

/-- A word that gives the option a value stands for that value. -/
theorem gives_cons_of_read {text : String} {given : α} (h : read? text = some given) :
    Gives (.long name (some text) :: words) name read? value ↔
      given = value ∨ Gives words name read? value := by
  rw [gives_cons_iff]
  simp [h]

end Gives

/-- One of the words names the set. -/
def NamesSet (words : List Word) (set : CodedSet) : Prop :=
  ∃ name, (.bare name ∈ words ∨ .operand name ∈ words) ∧ CodedSet.ofName? name = some set

theorem NamesSet.cons {words : List Word} {set : CodedSet} (h : NamesSet words set)
    (word : Word) : NamesSet (word :: words) set := by
  obtain ⟨name, hmem, hname⟩ := h
  exact ⟨name, hmem.imp (List.mem_cons_of_mem word) (List.mem_cons_of_mem word), hname⟩

end Word

namespace MagicOptions

/-- All that a word can say. -/
inductive Says : MagicOptions → Word → MagicOptions → Prop where
  | set {o : MagicOptions} {word : Word} {name : String} {set : CodedSet} :
      word = .bare name ∨ word = .operand name → CodedSet.ofName? name = some set →
      o.set = .none → Says o word { o with set := some set }
  | start {o : MagicOptions} {text : String} {value : UInt64} :
      readWord? text = some value → o.start = .none →
      Says o (.long "start" (some text)) { o with start := some value }
  | limit {o : MagicOptions} {text : String} {value : UInt64} :
      readWord? text = some value → o.limit = .none →
      Says o (.long "limit" (some text)) { o with limit := some value }
  | format {o : MagicOptions} {name : String} {format : Format} :
      Format.ofName? name = some format → o.format = .none →
      Says o (.long "format" (some name)) { o with format := some format }
  | listing {o : MagicOptions} :
      o.listing = false → Says o (.long "table" .none) { o with listing := true }

theorem take_eq_ok_iff {o o' : MagicOptions} {word : Word} :
    o.take word = .ok o' ↔ o.Says word o' := by
  have hname {name : String} (hword : word = .bare name ∨ word = .operand name)
      (h : (if o.set.isSome then .error (.unexpected word)
        else (optionValue "set" o.set (some name) CodedSet.ofName?).map ({ o with set := · }))
          = Except.ok o') : o.Says word o' := by
    split at h
    · cases h
    · obtain ⟨set, hvalue, rfl⟩ := map_eq_ok_iff.mp h
      obtain ⟨text, set, htext, hread, hnone, rfl⟩ := optionValue_eq_ok_iff.mp hvalue
      cases htext
      exact .set hword hread hnone
  constructor
  · intro h
    unfold take at h
    split at h
    · obtain ⟨start, hvalue, rfl⟩ := map_eq_ok_iff.mp h
      obtain ⟨text, value, rfl, hread, hnone, rfl⟩ := optionValue_eq_ok_iff.mp hvalue
      exact .start hread hnone
    · obtain ⟨limit, hvalue, rfl⟩ := map_eq_ok_iff.mp h
      obtain ⟨text, value, rfl, hread, hnone, rfl⟩ := optionValue_eq_ok_iff.mp hvalue
      exact .limit hread hnone
    · obtain ⟨format, hvalue, rfl⟩ := map_eq_ok_iff.mp h
      obtain ⟨name, format, rfl, hread, hnone, rfl⟩ := optionValue_eq_ok_iff.mp hvalue
      exact .format hread hnone
    · obtain ⟨listing, hvalue, rfl⟩ := map_eq_ok_iff.mp h
      obtain ⟨rfl, hfalse, rfl⟩ := flagValue_eq_ok_iff.mp hvalue
      exact .listing hfalse
    · exact hname (.inl rfl) h
    · exact hname (.inr rfl) h
    · cases h
  · intro h
    cases h with
    | @set _ name set hword hread hnone =>
        have hvalue : optionValue "set" o.set _ CodedSet.ofName? = _ :=
          optionValue_eq_ok_iff.mpr ⟨name, set, rfl, hread, hnone, rfl⟩
        have htake : o.take word = (if o.set.isSome then .error (.unexpected word)
            else (optionValue "set" o.set (some name) CodedSet.ofName?).map
              ({ o with set := · })) := by
          rcases hword with rfl | rfl
          all_goals rfl
        rw [htake, hvalue, hnone]
        rfl
    | @start text value hread hnone =>
        have hvalue : optionValue "start" o.start _ readWord? = _ :=
          optionValue_eq_ok_iff.mpr ⟨text, value, rfl, hread, hnone, rfl⟩
        exact congrArg (Except.map _) hvalue
    | @limit text value hread hnone =>
        have hvalue : optionValue "limit" o.limit _ readWord? = _ :=
          optionValue_eq_ok_iff.mpr ⟨text, value, rfl, hread, hnone, rfl⟩
        exact congrArg (Except.map _) hvalue
    | @format name format hread hnone =>
        have hvalue : optionValue "format" o.format _ Format.ofName? = _ :=
          optionValue_eq_ok_iff.mpr ⟨name, format, rfl, hread, hnone, rfl⟩
        exact congrArg (Except.map _) hvalue
    | listing hfalse =>
        have hvalue : flagValue "table" o.listing _ = _ :=
          flagValue_eq_ok_iff.mpr ⟨rfl, hfalse, rfl⟩
        exact congrArg (Except.map _) hvalue

theorem request_cons_of_said {o o' : MagicOptions} {word : Word} (h : o.Says word o')
    (rest : List Word) : o.request (word :: rest) = o'.request rest := by
  have hrequest : o.request (word :: rest) = o.take word >>= fun o => o.request rest := by
    cases h with
    | set hword _ _ =>
        rcases hword with rfl | rfl
        all_goals rfl
    | start _ _ => rfl
    | limit _ _ => rfl
    | format _ _ => rfl
    | listing _ => rfl
  rw [hrequest, take_eq_ok_iff.mpr h]
  rfl

/-- **The words of a search are the name of a set, options and separators.** -/
theorem request_cons_eq_ok_iff {o : MagicOptions} {word : Word} {rest : List Word}
    {r : MagicRequest} :
    o.request (word :: rest) = .ok (some r) ↔
      (word = .separator ∧ o.request rest = .ok (some r)) ∨
        ∃ o', o.Says word o' ∧ o'.request rest = .ok (some r) := by
  constructor
  · intro h
    generalize hwords : word :: rest = words at h
    unfold request at h
    split at h
    · cases hwords
    · cases h
    · cases h
    · cases hwords
      exact .inl ⟨rfl, h⟩
    · cases hwords
      obtain ⟨o', htake, hrest⟩ := bind_eq_ok_iff.mp h
      exact .inr ⟨o', take_eq_ok_iff.mp htake, hrest⟩
  · rintro (⟨rfl, hrest⟩ | ⟨o', hsaid, hrest⟩)
    · exact hrest
    · rw [request_cons_of_said hsaid]
      exact hrest

/-- What a request says of its words, when these options were given before. -/
structure Reads (o : MagicOptions) (words : List Word) (r : MagicRequest) : Prop where
  set : o.set = some r.set ∨ Word.NamesSet words r.set
  start : ∀ value, r.start = some value ↔
    o.start = some value ∨ Word.Gives words "start" readWord? value
  limit : ∀ value, r.limit = some value ↔
    o.limit = some value ∨ Word.Gives words "limit" readWord? value
  format : r.format = .json ↔
    o.format = some .json ∨ Word.Gives words "format" Format.ofName? .json
  listing : r.listing = true ↔ o.listing = true ∨ .long "table" .none ∈ words

section Reads

variable {o o' : MagicOptions} {word : Word} {words rest : List Word} {r : MagicRequest}

theorem reads_nil {set : CodedSet} (h : o.set = some set) :
    o.Reads [] ⟨set, o.start, o.limit, o.listing, o.format.getD .text⟩ := by
  refine ⟨.inl h, fun value => ?_, fun value => ?_, ?_, ?_⟩
  · exact (or_iff_left Word.not_gives_nil).symm
  · exact (or_iff_left Word.not_gives_nil).symm
  · rw [or_iff_left Word.not_gives_nil]
    cases o.format with
    | none => exact ⟨fun h => (nomatch h), fun h => (nomatch h)⟩
    | some format => exact (Option.some_inj).symm
  · exact (or_iff_left List.not_mem_nil).symm

theorem Reads.separator_cons (h : o.Reads rest r) : o.Reads (.separator :: rest) r := by
  refine ⟨?_, fun value => ?_, fun value => ?_, ?_, ?_⟩
  · exact h.set.imp_right fun hset => hset.cons _
  · rw [h.start value, Word.gives_cons_of_ne (by simp)]
  · rw [h.limit value, Word.gives_cons_of_ne (by simp)]
  · rw [h.format, Word.gives_cons_of_ne (by simp)]
  · rw [h.listing]
    simp

/-- What a word says is in the options after it. -/
theorem Reads.says_cons (hsaid : o.Says word o') (h : o'.Reads rest r) :
    o.Reads (word :: rest) r := by
  have hbare {name : String} (hword : word = .bare name ∨ word = .operand name) (option : String)
      (value : Option String) : word ≠ .long option value := by
    rcases hword with rfl | rfl
    all_goals simp
  refine ⟨?_, fun value => ?_, fun value => ?_, ?_, ?_⟩
  · cases hsaid with
    | @set _ name set hword hname _ =>
        refine .inr ?_
        rcases h.set with hset | hset
        · cases hset
          refine ⟨name, hword.imp ?_ ?_, hname⟩
          · rintro rfl
            exact List.mem_cons_self
          · rintro rfl
            exact List.mem_cons_self
        · exact hset.cons word
    | _ => exact h.set.imp_right fun hset => hset.cons _
  · rw [h.start value]
    cases hsaid with
    | start hread hnone =>
        rw [Word.gives_cons_of_read hread, hnone]
        simp
    | set hword _ _ => rw [Word.gives_cons_of_ne fun _ => hbare hword _ _]
    | _ => rw [Word.gives_cons_of_ne (by simp)]
  · rw [h.limit value]
    cases hsaid with
    | limit hread hnone =>
        rw [Word.gives_cons_of_read hread, hnone]
        simp
    | set hword _ _ => rw [Word.gives_cons_of_ne fun _ => hbare hword _ _]
    | _ => rw [Word.gives_cons_of_ne (by simp)]
  · rw [h.format]
    cases hsaid with
    | format hread hnone =>
        rw [Word.gives_cons_of_read hread, hnone]
        simp
    | set hword _ _ => rw [Word.gives_cons_of_ne fun _ => hbare hword _ _]
    | _ => rw [Word.gives_cons_of_ne (by simp)]
  · rw [h.listing, List.mem_cons]
    cases hsaid with
    | listing hfalse => simp
    | set hword _ _ => rw [or_iff_right (hbare hword _ _).symm]
    | _ => simp

/-- **A request says what its words say.** -/
theorem reads_of_request (h : o.request words = .ok (some r)) : o.Reads words r := by
  induction words generalizing o with
  | nil =>
      cases hset : o.set with
      | none =>
          unfold request at h
          rw [hset] at h
          cases h
      | some set =>
          unfold request at h
          rw [hset] at h
          cases h
          exact reads_nil hset
  | cons word rest ih =>
      rcases request_cons_eq_ok_iff.mp h with ⟨rfl, hrest⟩ | ⟨o', hsaid, hrest⟩
      · exact (ih hrest).separator_cons
      · exact .says_cons hsaid (ih hrest)

end Reads

/-! ## Listing the slots -/

/-- Where nothing else asks for a listing, it can be asked for in advance. -/
theorem request_listing {o : MagicOptions} {words : List Word} {r : MagicRequest}
    (h : o.request words = .ok (some r)) (hr : r.listing = false) :
    MagicOptions.request { o with listing := true } words
      = .ok (some { r with listing := true }) := by
  induction words generalizing o with
  | nil =>
      unfold request at h ⊢
      dsimp only
      cases hset : o.set with
      | none =>
          rw [hset] at h
          cases h
      | some set =>
          rw [hset] at h
          cases h
          rfl
  | cons word rest ih =>
      rcases request_cons_eq_ok_iff.mp h with ⟨rfl, hrest⟩ | ⟨o', hsaid, hrest⟩
      · exact ih hrest
      · refine request_cons_eq_ok_iff.mpr (.inr ⟨{ o' with listing := true }, ?_, ih hrest⟩)
        cases hsaid with
        | set hword hname hnone => exact .set hword hname hnone
        | start hread hnone => exact .start hread hnone
        | limit hread hnone => exact .limit hread hnone
        | format hname hnone => exact .format hname hnone
        | listing _ =>
            have hlisted := (reads_of_request hrest).listing.mpr (.inl rfl)
            rw [hr] at hlisted
            cases hlisted

end MagicOptions

/-- The words ask for just this. -/
structure MagicRequest.AskedBy (r : MagicRequest) (words : List Word) : Prop where
  set : Word.NamesSet words r.set
  start : ∀ value, r.start = some value ↔ Word.Gives words "start" readWord? value
  limit : ∀ value, r.limit = some value ↔ Word.Gives words "limit" readWord? value
  format : r.format = .json ↔ Word.Gives words "format" Format.ofName? .json
  listing : r.listing = true ↔ .long "table" none ∈ words

theorem askedBy_of_request {words : List Word} {r : MagicRequest}
    (h : MagicOptions.none.request words = .ok (some r)) : r.AskedBy words := by
  have hreads := MagicOptions.reads_of_request h
  refine ⟨hreads.set.resolve_left nofun, fun value => ?_, fun value => ?_, ?_, ?_⟩
  · exact (hreads.start value).trans (or_iff_right nofun)
  · exact (hreads.limit value).trans (or_iff_right nofun)
  · exact hreads.format.trans (or_iff_right nofun)
  · exact hreads.listing.trans (or_iff_right nofun)

/-! ## Options for keys in front -/

namespace KeyOptions

/-- Options for keys are kept on the way to the word `magic`. -/
theorem request_append_magic {o : KeyOptions} {words : List Word} {k : KeyRequest String}
    (h : o.request words = .ok (.run ⟨k, .none⟩)) (rest : List Word) :
    o.request (words ++ .bare "magic" :: rest)
      = (MagicOptions.none.request rest).map (Request.behind k) := by
  induction words generalizing o with
  | nil =>
      cases h
      rfl
  | cons word words ih =>
      rcases request_cons_eq_ok_iff.mp h with ⟨rfl, hrest⟩ | ⟨o', hsaid, hrest⟩
      · exact ih hrest
      · rw [List.cons_append, request_cons_of_said hsaid]
        exact ih hrest

/-- Nothing but options for keys stands in front of the word `magic`. -/
theorem exists_magic_of_request {o : KeyOptions} {words : List Word} {k : KeyRequest String}
    {r : MagicRequest} (h : o.request words = .ok (.run ⟨k, some r⟩)) :
    ∃ front back, words = front ++ .bare "magic" :: back ∧
      o.request front = .ok (.run ⟨k, .none⟩) ∧
      MagicOptions.none.request back = .ok (some r) := by
  induction words generalizing o with
  | nil => cases h
  | cons word rest ih =>
      -- a question for help or for the version is no request for a magic value
      generalize hwords : word :: rest = words at h
      unfold request at h
      split at h
      · cases hwords
      · cases h
      · cases h
      · cases h
      · cases h
      · obtain ⟨magic, hback, hbehind⟩ := map_eq_ok_iff.mp h
        cases magic with
        | none => cases hbehind
        | some magic =>
            cases hbehind
            exact ⟨[], _, rfl, rfl, hback⟩
      · cases h
      · cases h
      · cases h
      · cases hwords
        obtain ⟨front, back, rfl, hfront, hback⟩ := ih h
        exact ⟨.separator :: front, back, rfl, hfront, hback⟩
      · cases hwords
        obtain ⟨o', htake, hrest⟩ := bind_eq_ok_iff.mp h
        obtain ⟨front, back, rfl, hfront, hback⟩ := ih hrest
        refine ⟨word :: front, back, rfl, ?_, hback⟩
        exact request_cons_eq_ok_iff.mpr (.inr ⟨o', take_eq_ok_iff.mp htake, hfront⟩)

end KeyOptions

namespace Word

theorem split_magic_cons (arguments : List String) :
    split ("magic" :: arguments) = .bare "magic" :: split arguments := by
  have hbare : ofArgument "magic" = .bare "magic" := by decide
  rw [split_of_other (by decide) (by simp [hbare]), hbare]

/-- Arguments are taken one after the other, as long as no option waits for its value and the
options have not ended. -/
theorem split_append {before : List String} (hends : "--" ∉ before)
    (husable : ∀ word ∈ split before, ¬ KeyOptions.Unusable word) (after : List String) :
    split (before ++ after) = split before ++ split after := by
  induction before using split.induct with
  | case1 => rfl
  | case2 rest => exact absurd List.mem_cons_self hends
  | case3 argument ha name hname hvalue =>
      rw [split.eq_3 argument [] ha, hname] at husable
      dsimp only at husable
      rw [if_pos hvalue] at husable
      exact absurd hvalue (husable _ List.mem_cons_self)
  | case4 argument ha name hname hvalue next more hlooks _ =>
      rw [split_of_missing ha hname hvalue hlooks] at husable
      exact absurd hvalue (husable _ List.mem_cons_self)
  | case5 argument ha name hname hvalue value more hlooks ih =>
      simp only [List.cons_append, split_of_option ha hname hvalue hlooks] at husable ⊢
      rw [ih (fun hmem => hends (by simp [hmem])) fun word hword =>
        husable word (List.mem_cons_of_mem _ hword)]
  | case6 argument rest ha name hname hvalue ih =>
      simp only [List.cons_append, split_of_flag ha hname hvalue] at husable ⊢
      rw [ih (fun hmem => hends (by simp [hmem])) fun word hword =>
        husable word (List.mem_cons_of_mem _ hword)]
  | case7 argument rest ha hname ih =>
      simp only [List.cons_append, split_of_other ha hname] at husable ⊢
      rw [ih (fun hmem => hends (by simp [hmem])) fun word hword =>
        husable word (List.mem_cons_of_mem _ hword)]

theorem ofArgument_eq_bare {argument text : String} (h : ofArgument argument = .bare text) :
    argument = text := by
  unfold ofArgument at h
  split at h
  · dsimp only at h
    split at h
    · cases h
    · cases h
  · cases h
  · cases h
    rfl

/-- A plain word has been an argument of its own, between those that made the other words. -/
theorem exists_append_of_split {arguments : List String} {front back : List Word}
    {text : String} (h : split arguments = front ++ .bare text :: back)
    (husable : ∀ word ∈ front, ¬ KeyOptions.Unusable word) :
    ∃ before after, arguments = before ++ text :: after ∧ "--" ∉ before ∧
      split before = front ∧ split after = back := by
  -- the first word is in front, unless the one that is looked for is the first
  induction arguments using split.induct generalizing front with
  | case1 =>
      rw [split.eq_1] at h
      simp at h
  | case2 rest =>
      have hmem : Word.bare text ∈ split ("--" :: rest) := by simp [h]
      rw [split.eq_2] at hmem
      simp at hmem
  | case3 argument ha name hname hvalue =>
      have hmem : Word.bare text ∈ split [argument] := by simp [h]
      rw [split.eq_3 argument [] ha, hname] at hmem
      dsimp only at hmem
      rw [if_pos hvalue] at hmem
      simp at hmem
  | case4 argument ha name hname hvalue next more hlooks _ =>
      rw [split_of_missing ha hname hvalue hlooks] at h
      cases front with
      | nil => cases h
      | cons first front =>
          obtain ⟨rfl, -⟩ := List.cons.inj h
          exact absurd hvalue (husable _ List.mem_cons_self)
  | case5 argument ha name hname hvalue value more hlooks ih =>
      rw [split_of_option ha hname hvalue hlooks] at h
      cases front with
      | nil => cases h
      | cons first front =>
          obtain ⟨rfl, hrest⟩ := List.cons.inj h
          obtain ⟨before, after, rfl, hends, rfl, rfl⟩ :=
            ih hrest fun word hword => husable word (List.mem_cons_of_mem _ hword)
          have hvalue' : value ≠ "--" := by
            rintro rfl
            exact hlooks (by decide)
          refine ⟨argument :: value :: before, after, rfl, ?_, ?_, rfl⟩
          · simp [Ne.symm ha, hvalue'.symm, hends]
          · exact split_of_option ha hname hvalue hlooks before
  | case6 argument rest ha name hname hvalue ih =>
      rw [split_of_flag ha hname hvalue] at h
      cases front with
      | nil => cases h
      | cons first front =>
          obtain ⟨rfl, hrest⟩ := List.cons.inj h
          obtain ⟨before, after, rfl, hends, rfl, rfl⟩ :=
            ih hrest fun word hword => husable word (List.mem_cons_of_mem _ hword)
          refine ⟨argument :: before, after, rfl, ?_, split_of_flag ha hname hvalue before, rfl⟩
          simp [Ne.symm ha, hends]
  | case7 argument rest ha hname ih =>
      rw [split_of_other ha hname] at h
      cases front with
      | nil =>
          obtain ⟨hbare, rfl⟩ := List.cons.inj h
          obtain rfl := ofArgument_eq_bare hbare
          exact ⟨[], rest, rfl, List.not_mem_nil, rfl, rfl⟩
      | cons first front =>
          obtain ⟨rfl, hrest⟩ := List.cons.inj h
          obtain ⟨before, after, rfl, hends, rfl, rfl⟩ :=
            ih hrest fun word hword => husable word (List.mem_cons_of_mem _ hword)
          refine ⟨argument :: before, after, rfl, ?_, split_of_other ha hname before, rfl⟩
          simp [Ne.symm ha, hends]

end Word

/-! ## Requests for a magic value -/

/-- The arguments are options for keys, each of them whole. -/
def KeyArguments (arguments : List String) (k : KeyRequest String) : Prop :=
  "--" ∉ arguments ∧ Request.ofArguments arguments = .ok (.run ⟨k, none⟩)

/-- Options for keys in front of the word `magic` are read as if they stood alone. -/
theorem Request.ofArguments_append_magic {before : List String} {k : KeyRequest String}
    (h : KeyArguments before k) (after : List String) :
    ofArguments (before ++ "magic" :: after)
      = (MagicOptions.none.request (Word.split after)).map (behind k) := by
  obtain ⟨hends, hk⟩ := h
  unfold ofArguments at hk ⊢
  rw [Word.split_append hends (KeyOptions.not_unusable_of_mem hk), Word.split_magic_cons]
  exact KeyOptions.request_append_magic hk (Word.split after)

theorem keyArguments_nil : KeyArguments [] KeyOptions.none.keys := ⟨List.not_mem_nil, rfl⟩

/-- What asks for a search behind the word `magic` does so behind any options for keys. -/
theorem Request.ofArguments_append_magic_iff {before after : List String}
    {k k' : KeyRequest String} {r : MagicRequest} (h : KeyArguments before k) :
    ofArguments (before ++ "magic" :: after) = .ok (.run ⟨k', some r⟩) ↔
      k' = k ∧ MagicOptions.none.request (Word.split after) = .ok (some r) := by
  rw [ofArguments_append_magic h, map_eq_ok_iff]
  constructor
  · rintro ⟨magic, hmagic, hbehind⟩
    cases magic with
    | none => cases hbehind
    | some magic =>
        cases hbehind
        exact ⟨rfl, hmagic⟩
  · rintro ⟨rfl, hmagic⟩
    exact ⟨_, hmagic, rfl⟩

/-- **A search is asked for by the word `magic`, with options for keys in front of it.** -/
theorem Request.ofArguments_eq_magic_iff {arguments : List String} {k : KeyRequest String}
    {r : MagicRequest} :
    ofArguments arguments = .ok (.run ⟨k, some r⟩) ↔
      ∃ before after, arguments = before ++ "magic" :: after ∧ KeyArguments before k ∧
        MagicOptions.none.request (Word.split after) = .ok (some r) := by
  constructor
  · intro h
    unfold ofArguments at h
    obtain ⟨front, back, hsplit, hfront, hback⟩ := KeyOptions.exists_magic_of_request h
    obtain ⟨before, after, rfl, hends, rfl, rfl⟩ :=
      Word.exists_append_of_split hsplit (KeyOptions.not_unusable_of_mem hfront)
    exact ⟨before, after, rfl, ⟨hends, hfront⟩, hback⟩
  · rintro ⟨before, after, rfl, hbefore, hafter⟩
    exact (ofArguments_append_magic_iff hbefore).mpr ⟨rfl, hafter⟩

/-- Right behind the word `magic`, a listing of the slots can always be asked for. -/
theorem Request.ofArguments_insert_table {before after : List String} {k k' : KeyRequest String}
    {r : MagicRequest} (hbefore : KeyArguments before k) (hr : r.listing = false)
    (h : ofArguments (before ++ "magic" :: after) = .ok (.run ⟨k', some r⟩)) :
    ofArguments (before ++ "magic" :: "--table" :: after)
      = .ok (.run ⟨k', some { r with listing := true }⟩) := by
  have htable : Word.split ("--table" :: after) = .long "table" none :: Word.split after :=
    Word.split_of_flag (by decide) (by decide) (by decide) after
  obtain ⟨rfl, hafter⟩ := (ofArguments_append_magic_iff hbefore).mp h
  refine (ofArguments_append_magic_iff hbefore).mpr ⟨rfl, ?_⟩
  rw [htable, MagicOptions.request_cons_of_said (.listing rfl)]
  exact MagicOptions.request_listing hafter hr

/-! ## Arguments for every request -/

theorem toList_toString (n : Nat) : (toString n).toList = Nat.toDigits 10 n := by
  show (Nat.repr n).toList = _
  rw [Nat.repr_eq_ofList_toDigits, String.toList_ofList]

/-- A number is read back from its digits. -/
theorem readWord?_toString (n : UInt64) : readWord? (toString n.toNat) = some n := by
  obtain ⟨c, more, hdigits, hall⟩ := Json.exists_toDigits_eq_cons n.toNat
  have hplus : c ≠ '+' := by
    rintro rfl
    exact absurd (hall '+' List.mem_cons_self) (by decide)
  have hvalue : Nat.ofDigitChars 10 (c :: more) 0 = n.toNat := by
    rw [← hdigits, Nat.ofDigitChars_ten_toDigits]
  have hread {digits : List Char} (h : digits = c :: more) :
      (if digits ≠ [] ∧ digits.all Char.isDigit then
        let value := Nat.ofDigitChars 10 digits 0
        if value < UInt64.size then some (UInt64.ofNat value) else none
      else none) = some n := by
    subst h
    rw [if_pos ⟨List.cons_ne_nil c more, List.all_eq_true.mpr hall⟩, hvalue]
    exact (if_pos n.toNat_lt).trans (congrArg some UInt64.ofNat_toNat)
  unfold readWord?
  rw [toList_toString, hdigits]
  refine hread ?_
  split
  · next h => exact absurd (List.cons.inj h).1 hplus
  · rfl

theorem not_looksLikeOption_toString (n : Nat) : Word.looksLikeOption (toString n) ≠ true := by
  obtain ⟨c, more, hdigits, hall⟩ := Json.exists_toDigits_eq_cons n
  have hdash : c ≠ '-' := by
    rintro rfl
    exact absurd (hall '-' List.mem_cons_self) (by decide)
  unfold Word.looksLikeOption
  rw [toList_toString, hdigits]
  simp [hdash]

/-- The word that names the set. -/
def CodedSet.word : CodedSet → String
  | algorithms => "algorithms"
  | certificates => "certificates"
  | services => "services"

/-- An option with its value, if it is to have one. -/
def numeralArguments (option : String) : Option UInt64 → List String
  | none => []
  | some value => [option, toString value.toNat]

/-- Arguments that ask for just this. -/
def MagicRequest.arguments (r : MagicRequest) : List String :=
  r.set.word :: "--format" :: r.format.word ::
    (numeralArguments "--start" r.start ++
      (numeralArguments "--limit" r.limit ++ if r.listing then ["--table"] else []))

namespace MagicOptions

section Canonical

variable {o : MagicOptions} (rest : List String)

theorem request_set (set : CodedSet) (ho : o.set = .none) :
    o.request (Word.split (set.word :: rest))
      = request { o with set := some set } (Word.split rest) := by
  have hbare : Word.ofArgument set.word = .bare set.word := by
    cases set
    all_goals decide
  have hread : CodedSet.ofName? set.word = some set := by
    cases set
    all_goals rfl
  have hword : set.word ≠ "--" := by
    cases set
    all_goals decide
  rw [Word.split_of_other hword (by simp [hbare]), hbare]
  exact request_cons_of_said (.set (.inl rfl) hread ho) _

theorem request_format (format : Format) (ho : o.format = .none) :
    o.request (Word.split ("--format" :: format.word :: rest))
      = request { o with format := some format } (Word.split rest) := by
  rw [Word.split_format]
  exact request_cons_of_said (.format format.ofName?_word ho) _

theorem request_start (value : Option UInt64) (ho : o.start = .none) :
    o.request (Word.split (numeralArguments "--start" value ++ rest))
      = request { o with start := value } (Word.split rest) := by
  cases value with
  | none =>
      cases o
      cases ho
      rfl
  | some value =>
      have hsplit : Word.split ("--start" :: toString value.toNat :: rest)
          = .long "start" (some (toString value.toNat)) :: Word.split rest :=
        Word.split_of_option (by decide) (by decide) (by decide)
          (not_looksLikeOption_toString _) rest
      show o.request (Word.split ("--start" :: toString value.toNat :: rest)) = _
      rw [hsplit]
      exact request_cons_of_said (.start (readWord?_toString value) ho) _

theorem request_limit (value : Option UInt64) (ho : o.limit = .none) :
    o.request (Word.split (numeralArguments "--limit" value ++ rest))
      = request { o with limit := value } (Word.split rest) := by
  cases value with
  | none =>
      cases o
      cases ho
      rfl
  | some value =>
      have hsplit : Word.split ("--limit" :: toString value.toNat :: rest)
          = .long "limit" (some (toString value.toNat)) :: Word.split rest :=
        Word.split_of_option (by decide) (by decide) (by decide)
          (not_looksLikeOption_toString _) rest
      show o.request (Word.split ("--limit" :: toString value.toNat :: rest)) = _
      rw [hsplit]
      exact request_cons_of_said (.limit (readWord?_toString value) ho) _

end Canonical

end MagicOptions

/-- **Every request can be made, with any options for keys in front.** -/
theorem Request.ofArguments_arguments {before : List String} {k : KeyRequest String}
    (h : KeyArguments before k) (r : MagicRequest) :
    ofArguments (before ++ "magic" :: r.arguments) = .ok (.run ⟨k, some r⟩) := by
  obtain ⟨set, start, limit, listing, format⟩ := r
  refine (ofArguments_append_magic_iff h).mpr ⟨rfl, ?_⟩
  unfold MagicRequest.arguments
  rw [MagicOptions.request_set _ set rfl, MagicOptions.request_format _ format rfl,
    MagicOptions.request_start _ start rfl, MagicOptions.request_limit _ limit rfl]
  cases listing with
  | false =>
      rw [if_neg Bool.false_ne_true, Word.split.eq_1]
      rfl
  | true =>
      have htable : Word.split ["--table"] = .long "table" none :: Word.split [] :=
        Word.split_of_flag (by decide) (by decide) (by decide) []
      rw [if_pos rfl, htable, Word.split.eq_1, MagicOptions.request_cons_of_said (.listing rfl)]
      rfl

end PerfectKeys
