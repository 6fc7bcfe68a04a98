import PerfectKeys.Tool.Arguments

/-!
# What a command line asks for

A command line that asks for keys consists of options and nothing else. Each of them sets one
field that was not set before, so the request can be read off the words in any order, and
taking out the flag for strictness takes it out of the request.
-/

namespace PerfectKeys

/-! ## One word -/

theorem map_eq_ok_iff {ε α β : Type} {f : α → β} {x : Except ε α} {b : β} :
    x.map f = .ok b ↔ ∃ a, x = .ok a ∧ b = f a := by
  cases x with
  | error e => exact ⟨fun h => (nomatch h), fun ⟨_, h, _⟩ => (nomatch h)⟩
  | ok a =>
      refine ⟨fun h => ⟨a, rfl, (Except.ok.inj h).symm⟩, ?_⟩
      rintro ⟨a', ha, rfl⟩
      cases ha
      rfl

theorem bind_eq_ok_iff {ε α β : Type} {f : α → Except ε β} {x : Except ε α} {b : β} :
    (x >>= f) = .ok b ↔ ∃ a, x = .ok a ∧ f a = .ok b := by
  cases x with
  | error e => exact ⟨fun h => (nomatch h), fun ⟨_, h, _⟩ => (nomatch h)⟩
  | ok a =>
      refine ⟨fun h => ⟨a, rfl, h⟩, ?_⟩
      rintro ⟨a', ha, h⟩
      cases ha
      exact h

theorem optionValue_eq_ok_iff {α : Type} {name : String} {before after : Option α}
    {value : Option String} {read? : String → Option α} :
    optionValue name before value read? = .ok after ↔
      ∃ text a, value = some text ∧ read? text = some a ∧ before = none ∧ after = some a := by
  constructor
  · intro h
    unfold optionValue at h
    split at h
    · cases h
    · next text =>
      split at h
      · cases h
      · cases h
      · next a hread =>
        cases h
        exact ⟨text, a, rfl, hread, rfl, rfl⟩
  · rintro ⟨text, a, rfl, hread, rfl, rfl⟩
    unfold optionValue
    dsimp only
    rw [hread]

theorem flagValue_eq_ok_iff {name : String} {before after : Bool} {value : Option String} :
    flagValue name before value = .ok after ↔ value = none ∧ before = false ∧ after = true := by
  constructor
  · intro h
    unfold flagValue at h
    split at h
    · cases h
    · cases h
    · cases h
      exact ⟨rfl, rfl, rfl⟩
  · rintro ⟨rfl, rfl, rfl⟩
    rfl

theorem readPath?_eq_some_iff {text path : String} :
    readPath? text = some path ↔ text ≠ "" ∧ path = text := by
  unfold readPath?
  by_cases h : text = ""
  · rw [if_pos h]
    exact ⟨fun h => (nomatch h), fun hne => absurd h hne.1⟩
  · rw [if_neg h, Option.some.injEq]
    exact ⟨fun heq => ⟨h, heq.symm⟩, fun hpath => hpath.2.symm⟩

/-- What is asked for behind the word for a search is no derivation of keys. -/
theorem Request.behind_ne_keys (keys : KeyRequest String) (magic : Option MagicRequest)
    {r : KeyRequest String} : behind keys magic ≠ .run ⟨r, none⟩ := by
  intro h
  cases magic with
  | none => cases h
  | some magic => cases h

theorem ofName?_eq_some_json_iff {name : String} :
    Format.ofName? name = some .json ↔ name = "json" := by
  constructor
  · intro h
    unfold Format.ofName? at h
    split at h
    · cases h
    · rfl
    · cases h
  · rintro rfl
    rfl

namespace KeyOptions

/-- All that a word can say. -/
inductive Says : KeyOptions → Word → KeyOptions → Prop where
  | input {o : KeyOptions} {path : String} :
      path ≠ "" → o.input = .none → Says o (.long "input" (some path)) { o with input := some path }
  | format {o : KeyOptions} {name : String} {format : Format} :
      Format.ofName? name = some format → o.format = .none →
      Says o (.long "format" (some name)) { o with format := some format }
  | strict {o : KeyOptions} :
      o.strict = false → Says o (.long "strict" .none) { o with strict := true }

theorem take_eq_ok_iff {o o' : KeyOptions} {word : Word} :
    o.take word = .ok o' ↔ o.Says word o' := by
  constructor
  · intro h
    unfold take at h
    split at h
    · obtain ⟨input, hvalue, rfl⟩ := map_eq_ok_iff.mp h
      obtain ⟨text, path, rfl, hread, hnone, rfl⟩ := optionValue_eq_ok_iff.mp hvalue
      obtain ⟨hne, rfl⟩ := readPath?_eq_some_iff.mp hread
      exact .input hne hnone
    · obtain ⟨format, hvalue, rfl⟩ := map_eq_ok_iff.mp h
      obtain ⟨name, format, rfl, hread, hnone, rfl⟩ := optionValue_eq_ok_iff.mp hvalue
      exact .format hread hnone
    · obtain ⟨strict, hvalue, rfl⟩ := map_eq_ok_iff.mp h
      obtain ⟨rfl, hfalse, rfl⟩ := flagValue_eq_ok_iff.mp hvalue
      exact .strict hfalse
    · cases h
  · intro h
    cases h with
    | @input path hne hnone =>
        have hvalue : optionValue "input" o.input _ readPath? = _ := optionValue_eq_ok_iff.mpr
          ⟨path, path, rfl, readPath?_eq_some_iff.mpr ⟨hne, rfl⟩, hnone, rfl⟩
        exact congrArg (Except.map _) hvalue
    | @format name format hread hnone =>
        have hvalue : optionValue "format" o.format _ Format.ofName? = _ :=
          optionValue_eq_ok_iff.mpr ⟨name, format, rfl, hread, hnone, rfl⟩
        exact congrArg (Except.map _) hvalue
    | strict hfalse =>
        have hvalue : flagValue "strict" o.strict _ = _ :=
          flagValue_eq_ok_iff.mpr ⟨rfl, hfalse, rfl⟩
        exact congrArg (Except.map _) hvalue

theorem request_cons_of_said {o o' : KeyOptions} {word : Word} (h : o.Says word o')
    (rest : List Word) : o.request (word :: rest) = o'.request rest := by
  have hrequest : o.request (word :: rest) = o.take word >>= fun o => o.request rest := by
    cases h
    all_goals rfl
  rw [hrequest, take_eq_ok_iff.mpr h]
  rfl

/-- **The words of a request for keys are options, and separators.** -/
theorem request_cons_eq_ok_iff {o : KeyOptions} {word : Word} {rest : List Word}
    {r : KeyRequest String} :
    o.request (word :: rest) = .ok (.run ⟨r, .none⟩) ↔
      (word = .separator ∧ o.request rest = .ok (.run ⟨r, .none⟩)) ∨
        ∃ o', o.Says word o' ∧ o'.request rest = .ok (.run ⟨r, .none⟩) := by
  constructor
  · intro h
    generalize hwords : word :: rest = words at h
    unfold request at h
    split at h
    · cases hwords
    · cases h
    · cases h
    · cases h
    · cases h
    · obtain ⟨magic, -, hmagic⟩ := map_eq_ok_iff.mp h
      exact absurd hmagic.symm (Request.behind_ne_keys _ _)
    · cases h
    · cases h
    · cases h
    · cases hwords
      exact .inl ⟨rfl, h⟩
    · cases hwords
      obtain ⟨o', htake, hrest⟩ := bind_eq_ok_iff.mp h
      exact .inr ⟨o', take_eq_ok_iff.mp htake, hrest⟩
  · rintro (⟨rfl, hrest⟩ | ⟨o', hsaid, hrest⟩)
    · exact hrest
    · rw [request_cons_of_said hsaid]
      exact hrest

/-- What a request says of its words, when these options were given before. -/
structure Reads (o : KeyOptions) (words : List Word) (r : KeyRequest String) : Prop where
  input : ∀ path, r.input = some path ↔
    o.input = some path ∨ .long "input" (some path) ∈ words
  format : r.format = .json ↔ o.format = some .json ∨ .long "format" (some "json") ∈ words
  strict : r.strict = true ↔ o.strict = true ∨ .long "strict" .none ∈ words

section Reads

variable {o o' : KeyOptions} {word : Word} {words rest : List Word} {r : KeyRequest String}

theorem reads_nil (o : KeyOptions) : o.Reads [] o.keys := by
  unfold keys
  refine ⟨fun path => by simp, ?_, by simp⟩
  cases o.format with
  | none => simp
  | some format => simp

theorem Reads.separator_cons (h : o.Reads rest r) : o.Reads (.separator :: rest) r := by
  refine ⟨fun path => ?_, ?_, ?_⟩
  · rw [h.input path]
    simp
  · rw [h.format]
    simp
  · rw [h.strict]
    simp

/-- What a word says is in the options after it. -/
theorem Reads.says_cons (hsaid : o.Says word o') (h : o'.Reads rest r) :
    o.Reads (word :: rest) r := by
  refine ⟨fun path => ?_, ?_, ?_⟩
  · rw [h.input path]
    cases hsaid with
    | input _ hnone => simp [hnone, eq_comm]
    | format _ _ => simp
    | strict _ => simp
  · rw [h.format]
    cases hsaid with
    | input _ _ => simp
    | @format name format hname hnone =>
        have hjson : format = .json ↔ name = "json" := by
          rw [← ofName?_eq_some_json_iff, hname, Option.some.injEq]
        simp [hnone, hjson, eq_comm]
    | strict _ => simp
  · rw [h.strict]
    cases hsaid with
    | input _ _ => simp
    | format _ _ => simp
    | strict _ => simp

/-- **A request says what its words say.** -/
theorem reads_of_request (h : o.request words = .ok (.run ⟨r, .none⟩)) : o.Reads words r := by
  induction words generalizing o with
  | nil =>
      cases h
      exact reads_nil o
  | cons word rest ih =>
      rcases request_cons_eq_ok_iff.mp h with ⟨rfl, hrest⟩ | ⟨o', hsaid, hrest⟩
      · exact (ih hrest).separator_cons
      · exact .says_cons hsaid (ih hrest)

end Reads

/-! ## The flag for strictness -/

theorem says_flag_iff {o o' : KeyOptions} :
    o.Says (.long "strict" .none) o' ↔ o.strict = false ∧ o' = { o with strict := true } := by
  rw [← take_eq_ok_iff]
  show (flagValue "strict" o.strict .none).map _ = _ ↔ _
  rw [map_eq_ok_iff]
  constructor
  · rintro ⟨strict, hvalue, rfl⟩
    obtain ⟨-, hfalse, rfl⟩ := flagValue_eq_ok_iff.mp hvalue
    exact ⟨hfalse, rfl⟩
  · rintro ⟨hfalse, rfl⟩
    exact ⟨true, flagValue_eq_ok_iff.mpr ⟨rfl, hfalse, rfl⟩, rfl⟩

/-- What was strict stays strict. -/
theorem strict_eq_false_of_request {o : KeyOptions} {words : List Word} {r : KeyRequest String}
    (h : o.request words = .ok (.run ⟨r, .none⟩)) (hr : r.strict = false) : o.strict = false := by
  cases ho : o.strict with
  | false => rfl
  | true =>
      have hstrict := (reads_of_request h).strict.mpr (.inl ho)
      rw [hr] at hstrict
      cases hstrict

theorem says_strict_iff {o o'' : KeyOptions} {word : Word} (ho : o.strict = false) :
    Says { o with strict := true } word o'' ↔
      ∃ o', o.Says word o' ∧ o'.strict = false ∧ o'' = { o' with strict := true } := by
  constructor
  · intro h
    cases h with
    | input hne hnone => exact ⟨_, .input hne hnone, ho, rfl⟩
    | format hname hnone => exact ⟨_, .format hname hnone, ho, rfl⟩
    | strict hfalse => cases hfalse
  · rintro ⟨o', hsaid, hstrict, rfl⟩
    cases hsaid with
    | input hne hnone => exact .input hne hnone
    | format hname hnone => exact .format hname hnone
    | strict _ => cases hstrict

theorem request_strict_iff {o : KeyOptions} (ho : o.strict = false) {words : List Word}
    {r' : KeyRequest String} :
    KeyOptions.request { o with strict := true } words = .ok (.run ⟨r', .none⟩) ↔
      ∃ r, o.request words = .ok (.run ⟨r, .none⟩) ∧ r.strict = false ∧
        r' = { r with strict := true } := by
  induction words generalizing o with
  | nil =>
      constructor
      · intro h
        cases h
        exact ⟨_, rfl, ho, rfl⟩
      · rintro ⟨r, hr, -, rfl⟩
        cases hr
        rfl
  | cons word rest ih =>
      rw [request_cons_eq_ok_iff]
      constructor
      · rintro (⟨rfl, hrest⟩ | ⟨o'', hsaid, hrest⟩)
        · exact (ih ho).mp hrest
        · obtain ⟨o', hsaid', ho', rfl⟩ := (says_strict_iff ho).mp hsaid
          obtain ⟨r, hr, hfalse, rfl⟩ := (ih ho').mp hrest
          exact ⟨r, request_cons_eq_ok_iff.mpr (.inr ⟨o', hsaid', hr⟩), hfalse, rfl⟩
      · rintro ⟨r, hr, hfalse, rfl⟩
        rcases request_cons_eq_ok_iff.mp hr with ⟨rfl, hrest⟩ | ⟨o', hsaid, hrest⟩
        · exact .inl ⟨rfl, (ih ho).mpr ⟨r, hrest, hfalse, rfl⟩⟩
        · have ho' := strict_eq_false_of_request hrest hfalse
          exact .inr ⟨_, (says_strict_iff ho).mpr ⟨o', hsaid, ho', rfl⟩,
            (ih ho').mpr ⟨r, hrest, hfalse, rfl⟩⟩

/-- The flag is given once at most. -/
theorem strict_not_mem {o : KeyOptions} (ho : o.strict = true) {words : List Word}
    {r : KeyRequest String} (h : o.request words = .ok (.run ⟨r, .none⟩)) :
    Word.long "strict" .none ∉ words := by
  induction words generalizing o with
  | nil => exact fun h => nomatch h
  | cons word rest ih =>
      rcases request_cons_eq_ok_iff.mp h with ⟨rfl, hrest⟩ | ⟨o', hsaid, hrest⟩
      · simpa using ih ho hrest
      · cases hsaid with
        | input _ _ => simpa using ih (by exact ho) hrest
        | format _ _ => simpa using ih (by exact ho) hrest
        | strict hfalse =>
            rw [ho] at hfalse
            cases hfalse

/-- **Wherever the flag stands, taking it out makes the request a lenient one.** -/
theorem request_insert_strict_iff {o : KeyOptions} (ho : o.strict = false)
    (before after : List Word) {r' : KeyRequest String} :
    o.request (before ++ .long "strict" .none :: after) = .ok (.run ⟨r', .none⟩) ↔
      ∃ r, o.request (before ++ after) = .ok (.run ⟨r, .none⟩) ∧ r.strict = false ∧
        r' = { r with strict := true } := by
  induction before generalizing o with
  | nil =>
      rw [List.nil_append, List.nil_append, request_cons_eq_ok_iff, ← request_strict_iff ho]
      constructor
      · rintro (⟨hword, -⟩ | ⟨o', hsaid, hrest⟩)
        · cases hword
        · obtain ⟨-, rfl⟩ := says_flag_iff.mp hsaid
          exact hrest
      · intro hrest
        exact .inr ⟨_, .strict ho, hrest⟩
  | cons word before ih =>
      rw [List.cons_append, List.cons_append, request_cons_eq_ok_iff]
      constructor
      · rintro (⟨rfl, hrest⟩ | ⟨o', hsaid, hrest⟩)
        · obtain ⟨r, hr, hfalse, rfl⟩ := (ih ho).mp hrest
          exact ⟨r, request_cons_eq_ok_iff.mpr (.inl ⟨rfl, hr⟩), hfalse, rfl⟩
        · have ho' : o'.strict = false := by
            cases ho' : o'.strict with
            | false => rfl
            | true => exact absurd (by simp) (strict_not_mem ho' hrest)
          obtain ⟨r, hr, hfalse, rfl⟩ := (ih ho').mp hrest
          exact ⟨r, request_cons_eq_ok_iff.mpr (.inr ⟨o', hsaid, hr⟩), hfalse, rfl⟩
      · rintro ⟨r, hr, hfalse, rfl⟩
        rcases request_cons_eq_ok_iff.mp hr with ⟨rfl, hrest⟩ | ⟨o', hsaid, hrest⟩
        · exact .inl ⟨rfl, (ih ho).mpr ⟨r, hrest, hfalse, rfl⟩⟩
        · have ho' := strict_eq_false_of_request hrest hfalse
          exact .inr ⟨o', hsaid, (ih ho').mpr ⟨r, hrest, hfalse, rfl⟩⟩

/-- Options that lack their value, and words that are no options at all. -/
def Unusable : Word → Prop
  | .long name .none => Word.takesValue name = true
  | .operand _ => True
  | _ => False

theorem not_unusable_of_mem {o : KeyOptions} {words : List Word} {r : KeyRequest String}
    (h : o.request words = .ok (.run ⟨r, .none⟩)) : ∀ word ∈ words, ¬ Unusable word := by
  induction words generalizing o with
  | nil => exact fun word hword => nomatch hword
  | cons first rest ih =>
      intro word hword
      rcases request_cons_eq_ok_iff.mp h with ⟨rfl, hrest⟩ | ⟨o', hsaid, hrest⟩
      · rcases List.mem_cons.mp hword with rfl | hword
        · exact id
        · exact ih hrest word hword
      · rcases List.mem_cons.mp hword with rfl | hword
        · cases hsaid with
          | input _ _ => exact id
          | format _ _ => exact id
          | strict _ => exact fun h => nomatch h
        · exact ih hrest word hword

end KeyOptions

/-! ## The flag among the arguments -/

namespace Word

section Split

variable {argument name : String} (ha : argument ≠ "--")

include ha

theorem split_of_flag (hname : ofArgument argument = .long name none)
    (hvalue : takesValue name ≠ true) (rest : List String) :
    split (argument :: rest) = .long name none :: split rest := by
  rw [split.eq_3 argument rest ha, hname]
  exact if_neg hvalue

theorem split_of_option (hname : ofArgument argument = .long name none)
    (hvalue : takesValue name = true) {value : String} (hlooks : looksLikeOption value ≠ true)
    (more : List String) :
    split (argument :: value :: more) = .long name (some value) :: split more := by
  rw [split.eq_3 argument (value :: more) ha, hname]
  dsimp only
  rw [if_pos hvalue, if_neg hlooks]

theorem split_of_missing (hname : ofArgument argument = .long name none)
    (hvalue : takesValue name = true) {next : String} (hlooks : looksLikeOption next = true)
    (more : List String) :
    split (argument :: next :: more) = .long name none :: split (next :: more) := by
  rw [split.eq_3 argument (next :: more) ha, hname]
  dsimp only
  rw [if_pos hvalue, if_pos hlooks]

theorem split_of_other (hname : ∀ name, ofArgument argument ≠ .long name none)
    (rest : List String) : split (argument :: rest) = ofArgument argument :: split rest := by
  rw [split.eq_3 argument rest ha]
  split
  · next name h => exact absurd h (hname name)
  · rfl

end Split

theorem split_strict_cons (arguments : List String) :
    split ("--strict" :: arguments) = .long "strict" none :: split arguments :=
  split_of_flag (by decide) (by decide) (by decide) arguments

/-- The words are the others with the flag put in, or they are not all usable. -/
def FlagPutIn (words others : List Word) : Prop :=
  (∃ front back, words = front ++ .long "strict" none :: back ∧ others = front ++ back) ∨
    ∃ word ∈ words, KeyOptions.Unusable word

theorem FlagPutIn.cons {words others : List Word} (h : FlagPutIn words others) (word : Word) :
    FlagPutIn (word :: words) (word :: others) := by
  rcases h with ⟨front, back, rfl, rfl⟩ | ⟨other, hmem, hother⟩
  · exact .inl ⟨word :: front, back, rfl, rfl⟩
  · exact .inr ⟨other, List.mem_cons_of_mem word hmem, hother⟩

/-- The flag makes a word of its own, unless an option lacks its value or options have ended. -/
theorem split_insert_strict (before after : List String) :
    FlagPutIn (split (before ++ "--strict" :: after)) (split (before ++ after)) := by
  induction before using split.induct with
  | case1 =>
      rw [List.nil_append, List.nil_append, split_strict_cons]
      exact .inl ⟨[], _, rfl, rfl⟩
  | case2 rest =>
      rw [List.cons_append, split.eq_2]
      exact .inr ⟨.operand "--strict", by simp, trivial⟩
  | case3 argument ha name hname hvalue =>
      have hlooks : looksLikeOption "--strict" = true := by decide
      rw [List.singleton_append, split_of_missing ha hname hvalue hlooks]
      exact .inr ⟨_, List.mem_cons_self, hvalue⟩
  | case4 argument ha name hname hvalue next more hlooks _ =>
      rw [List.cons_append, List.cons_append, split_of_missing ha hname hvalue hlooks]
      exact .inr ⟨_, List.mem_cons_self, hvalue⟩
  | case5 argument ha name hname hvalue value more hlooks ih =>
      simp only [List.cons_append, split_of_option ha hname hvalue hlooks]
      exact ih.cons _
  | case6 argument rest ha name hname hvalue ih =>
      simp only [List.cons_append, split_of_flag ha hname hvalue]
      exact ih.cons _
  | case7 argument rest ha hname ih =>
      simp only [List.cons_append, split_of_other ha hname]
      exact ih.cons _

theorem ofArgument_eq_long_none {argument name : String}
    (h : ofArgument argument = .long name none) : argument = "--" ++ name := by
  unfold ofArgument at h
  split at h
  · next rest hrest =>
    dsimp only at h
    split at h
    · next hdrop =>
      cases h
      have happ := List.takeWhile_append_dropWhile (p := fun c => decide (c ≠ '=')) (l := rest)
      rw [hdrop, List.append_nil] at happ
      refine String.toList_inj.mp ?_
      rw [hrest, happ, String.toList_append, String.toList_ofList, String.toList_ofList]
      rfl
    · cases h
  · cases h
  · cases h

/-- An option without a value has been an argument of its own. -/
theorem mem_of_mem_split {arguments : List String} {name : String}
    (h : .long name none ∈ split arguments) : "--" ++ name ∈ arguments := by
  have hfirst {argument other : String} (hname : ofArgument argument = .long other none)
      (heq : Word.long name none = .long other none) : "--" ++ name = argument := by
    cases heq
    exact (ofArgument_eq_long_none hname).symm
  induction arguments using split.induct with
  | case1 =>
      rw [split.eq_1] at h
      cases h
  | case2 rest =>
      rw [split.eq_2] at h
      simp at h
  | case3 argument ha other hname hvalue =>
      rw [split.eq_3 argument [] ha, hname] at h
      dsimp only at h
      rw [if_pos hvalue, List.mem_singleton] at h
      rw [hfirst hname h]
      exact List.mem_cons_self
  | case4 argument ha other hname hvalue next more hlooks ih =>
      rw [split_of_missing ha hname hvalue hlooks, List.mem_cons] at h
      rcases h with heq | hmem
      · rw [hfirst hname heq]
        exact List.mem_cons_self
      · exact List.mem_cons_of_mem _ (ih hmem)
  | case5 argument ha other hname hvalue value more hlooks ih =>
      rw [split_of_option ha hname hvalue hlooks, List.mem_cons] at h
      rcases h with heq | hmem
      · cases heq
      · exact List.mem_cons_of_mem _ (List.mem_cons_of_mem _ (ih hmem))
  | case6 argument rest ha other hname hvalue ih =>
      rw [split_of_flag ha hname hvalue, List.mem_cons] at h
      rcases h with heq | hmem
      · rw [hfirst hname heq]
        exact List.mem_cons_self
      · exact List.mem_cons_of_mem _ (ih hmem)
  | case7 argument rest ha hname ih =>
      rw [split_of_other ha hname, List.mem_cons] at h
      rcases h with heq | hmem
      · exact absurd heq.symm (hname name)
      · exact List.mem_cons_of_mem _ (ih hmem)

end Word

/-! ## Requests for keys -/

theorem Request.ofArguments_insert_strict {before after : List String} {r' : KeyRequest String}
    (h : ofArguments (before ++ "--strict" :: after) = .ok (.run ⟨r', .none⟩)) :
    ∃ r : KeyRequest String, ofArguments (before ++ after) = .ok (.run ⟨r, .none⟩) ∧
      r.strict = false ∧ r' = { r with strict := true } := by
  have hnone : KeyOptions.none.strict = false := rfl
  unfold ofArguments at h ⊢
  rcases Word.split_insert_strict before after with ⟨front, back, hwith, hwithout⟩ | hunusable
  · rw [hwith] at h
    rw [hwithout]
    exact (KeyOptions.request_insert_strict_iff hnone front back).mp h
  · obtain ⟨word, hmem, hword⟩ := hunusable
    exact absurd hword (KeyOptions.not_unusable_of_mem h word hmem)

/-- A request is strict when the flag is among the arguments. -/
theorem Request.strict_iff_mem {arguments : List String} {r : KeyRequest String}
    (h : ofArguments arguments = .ok (.run ⟨r, .none⟩)) :
    r.strict = true ↔ "--strict" ∈ arguments := by
  constructor
  · intro hstrict
    rcases (KeyOptions.reads_of_request h).strict.mp hstrict with hnone | hmem
    · cases hnone
    · exact Word.mem_of_mem_split hmem
  · intro hmem
    obtain ⟨before, after, rfl⟩ := List.append_of_mem hmem
    obtain ⟨lenient, -, -, rfl⟩ := ofArguments_insert_strict h
    rfl

/-- In front of a lenient request, the flag can always be added. -/
theorem Request.ofArguments_strict_cons {arguments : List String} {r : KeyRequest String}
    (h : ofArguments arguments = .ok (.run ⟨r, .none⟩)) (hr : r.strict = false) :
    ofArguments ("--strict" :: arguments) = .ok (.run ⟨{ r with strict := true }, none⟩) := by
  unfold ofArguments
  rw [Word.split_strict_cons]
  exact (KeyOptions.request_insert_strict_iff rfl [] _).mpr ⟨r, h, hr, rfl⟩

/-! ## Naming a format and a file -/

/-- The word that names the format. -/
def Format.word : Format → String
  | text => "text"
  | json => "json"

theorem Format.ofName?_word (format : Format) : ofName? format.word = some format := by
  cases format
  all_goals rfl

theorem Word.split_format (format : Format) (more : List String) :
    split ("--format" :: format.word :: more) =
      .long "format" (some format.word) :: split more := by
  have hlooks : looksLikeOption format.word ≠ true := by
    cases format
    all_goals decide
  exact split_of_option (by decide) (by decide) (by decide) hlooks more

/-- A file that does not look like an option can be named behind the other options. -/
theorem Request.ofArguments_strict_format_input (format : Format) {path : String} (hne : path ≠ "")
    (hlooks : Word.looksLikeOption path ≠ true) :
    ofArguments ["--strict", "--format", format.word, "--input", path] =
      .ok (.run ⟨⟨some path, format, true⟩, none⟩) := by
  have hinput : Word.split ["--input", path] = [.long "input" (some path)] :=
    Word.split_of_option (by decide) (by decide) (by decide) hlooks []
  have hlenient : ofArguments ["--format", format.word, "--input", path] =
      .ok (.run ⟨⟨some path, format, false⟩, none⟩) := by
    unfold ofArguments
    rw [Word.split_format, hinput]
    refine KeyOptions.request_cons_eq_ok_iff.mpr (.inr ⟨_, .format format.ofName?_word rfl, ?_⟩)
    exact KeyOptions.request_cons_eq_ok_iff.mpr (.inr ⟨_, .input hne rfl, rfl⟩)
  exact ofArguments_strict_cons hlenient rfl

end PerfectKeys
