import PerfectKeys.Proofs.Tool.MagicArguments
import PerfectKeys.Tool.Execution

/-!
# Readers of command lines

The tool leaves it to a reader what command line its arguments spell, if they are one. Whatever
an argument is, and however a file is named, little has to be known of the reader: that the flag
for strictness is one option of its own, that what stands in front of a search are options for
keys, with nothing to say about the search, and that its slots can be listed, too.

`Reader.standard` reads arguments that are texts, as `Request.ofArguments` does, and has these
properties. What it reads is what the words of the arguments ask for.
-/

namespace PerfectKeys

/-- What makes a command line of arguments. -/
structure Reader (Argument Path : Type) where
  /-- The command line that the arguments spell, unless they spell something else. -/
  read : List Argument → Option (CommandLine Path)
  /-- The flag that makes failures of collisions. -/
  strict : Argument
  /-- The word that asks for a search. -/
  magic : Argument
  /-- The flag that asks for a listing of the slots. -/
  table : Argument
  /-- What ends the options. -/
  separator : Argument

namespace Reader

variable {Argument Path : Type} {reader : Reader Argument Path}

/-- The arguments are options for keys, each of them whole. -/
def ForKeys (reader : Reader Argument Path) (arguments : List Argument) (keys : KeyRequest Path) :
    Prop :=
  reader.separator ∉ arguments ∧ reader.read arguments = some ⟨keys, none⟩

/-- What is relied on about a reader. -/
structure Lawful (reader : Reader Argument Path) : Prop where
  /-- Keys are asked for strictly when the flag is given. -/
  strict_iff_mem {arguments : List Argument} {keys : KeyRequest Path} :
    reader.read arguments = some ⟨keys, none⟩ →
      (keys.strict = true ↔ reader.strict ∈ arguments)
  /-- Without the flag the other options stay as they are. -/
  read_append {before after : List Argument} {keys : KeyRequest Path} :
    reader.read (before ++ reader.strict :: after) = some ⟨keys, none⟩ →
      reader.read (before ++ after) = some ⟨{ keys with strict := false }, none⟩
  /-- The flag can be put in front if it was not given. -/
  read_strict_cons {arguments : List Argument} {keys : KeyRequest Path} :
    reader.read arguments = some ⟨keys, none⟩ → keys.strict = false →
      reader.read (reader.strict :: arguments) = some ⟨{ keys with strict := true }, none⟩
  /-- Every search can be asked for. -/
  exists_arguments (request : MagicRequest) :
    ∃ after keys, reader.read (reader.magic :: after) = some ⟨keys, some request⟩
  /-- Options for keys may stand in front of a search. -/
  read_append_magic {before after : List Argument} {keys keys' : KeyRequest Path}
    {request : MagicRequest} : reader.ForKeys before keys →
    reader.read (reader.magic :: after) = some ⟨keys', some request⟩ →
      reader.read (before ++ reader.magic :: after) = some ⟨keys, some request⟩
  /-- Nothing else may stand there. -/
  exists_of_read_magic {arguments : List Argument} {keys : KeyRequest Path}
    {request : MagicRequest} : reader.read arguments = some ⟨keys, some request⟩ →
      ∃ before after keys', arguments = before ++ reader.magic :: after ∧
        reader.ForKeys before keys ∧
        reader.read (reader.magic :: after) = some ⟨keys', some request⟩
  /-- The slots can be listed if this was not asked for. -/
  read_magic_table {after : List Argument} {keys : KeyRequest Path} {request : MagicRequest} :
    reader.read (reader.magic :: after) = some ⟨keys, some request⟩ → request.listing = false →
      reader.read (reader.magic :: reader.table :: after)
        = some ⟨keys, some { request with listing := true }⟩

/-- What the tool does with arguments, if they spell a command line. -/
def outcome? (reader : Reader Argument Path) (filter : LogFilter) (s : Surroundings Path)
    (arguments : List Argument) : Option Outcome :=
  (reader.read arguments).map (·.run filter s)

theorem outcome?_of_read {arguments : List Argument} {line : CommandLine Path}
    (h : reader.read arguments = some line) (filter : LogFilter) (s : Surroundings Path) :
    reader.outcome? filter s arguments = some (line.run filter s) := by
  unfold outcome?
  rw [h]
  rfl

/-! ## Arguments that are texts -/

/-- Reads texts, which name files as well. -/
def standard : Reader String String where
  read arguments :=
    match Request.ofArguments arguments with
    | .ok (.run line) => some line
    | _ => none
  strict := "--strict"
  magic := "magic"
  table := "--table"
  separator := "--"

theorem read_standard_iff {arguments : List String} {line : CommandLine String} :
    standard.read arguments = some line ↔ Request.ofArguments arguments = .ok (.run line) := by
  unfold standard
  dsimp only
  constructor
  · intro h
    split at h
    · next line' hline =>
      cases h
      exact hline
    · cases h
  · intro h
    rw [h]

/-- Options that are read as options for keys are whole, if none of them ends the options. -/
theorem keyArguments_iff {arguments : List String} {keys : KeyRequest String} :
    KeyArguments arguments keys ↔ standard.ForKeys arguments keys := by
  unfold ForKeys
  rw [read_standard_iff]
  rfl

theorem read_standard_magic_iff {after : List String} {keys : KeyRequest String}
    {request : MagicRequest} :
    standard.read ("magic" :: after) = some ⟨keys, some request⟩ ↔
      keys = KeyOptions.none.keys ∧
        MagicOptions.none.request (Word.split after) = .ok (some request) := by
  have hiff : Request.ofArguments ([] ++ "magic" :: after) = .ok (.run ⟨keys, some request⟩) ↔
      keys = KeyOptions.none.keys ∧
        MagicOptions.none.request (Word.split after) = .ok (some request) :=
    Request.ofArguments_append_magic_iff keyArguments_nil
  rw [List.nil_append] at hiff
  exact read_standard_iff.trans hiff

/-- **A request for keys that was read is what its words ask for.** -/
theorem asked_of_read {arguments : List String} {keys : KeyRequest String}
    (h : standard.read arguments = some ⟨keys, none⟩) :
    (∀ path, keys.input = some path ↔ .long "input" (some path) ∈ Word.split arguments) ∧
      (keys.format = .json ↔ .long "format" (some "json") ∈ Word.split arguments) ∧
      (keys.strict = true ↔ .long "strict" none ∈ Word.split arguments) := by
  have hreads := KeyOptions.reads_of_request (read_standard_iff.mp h)
  refine ⟨fun path => ?_, ?_, ?_⟩
  · rw [hreads.input path]
    exact or_iff_right nofun
  · rw [hreads.format]
    exact or_iff_right nofun
  · rw [hreads.strict]
    exact or_iff_right nofun

/-- **A search that was read is what the words behind `magic` ask for.** -/
theorem exists_askedBy_of_read {arguments : List String} {keys : KeyRequest String}
    {request : MagicRequest} (h : standard.read arguments = some ⟨keys, some request⟩) :
    ∃ before after, arguments = before ++ "magic" :: after ∧ standard.ForKeys before keys ∧
      request.AskedBy (Word.split after) := by
  obtain ⟨before, after, rfl, hbefore, hafter⟩ :=
    Request.ofArguments_eq_magic_iff.mp (read_standard_iff.mp h)
  exact ⟨before, after, rfl, keyArguments_iff.mp hbefore, askedBy_of_request hafter⟩

/-- **Texts are read as they have to be.** -/
theorem lawful_standard : standard.Lawful where
  strict_iff_mem h := Request.strict_iff_mem (read_standard_iff.mp h)
  read_append h := by
    obtain ⟨lenient, haccepted, hstrict, rfl⟩ :=
      Request.ofArguments_insert_strict (read_standard_iff.mp h)
    obtain ⟨input, format, strict⟩ := lenient
    cases hstrict
    exact read_standard_iff.mpr haccepted
  read_strict_cons h hstrict :=
    read_standard_iff.mpr (Request.ofArguments_strict_cons (read_standard_iff.mp h) hstrict)
  exists_arguments request := by
    have harguments := Request.ofArguments_arguments keyArguments_nil request
    rw [List.nil_append] at harguments
    exact ⟨request.arguments, _, read_standard_iff.mpr harguments⟩
  read_append_magic h hmagic := by
    obtain ⟨-, hafter⟩ := read_standard_magic_iff.mp hmagic
    exact read_standard_iff.mpr
      ((Request.ofArguments_append_magic_iff (keyArguments_iff.mpr h)).mpr ⟨rfl, hafter⟩)
  exists_of_read_magic h := by
    obtain ⟨before, after, rfl, hbefore, hafter⟩ :=
      Request.ofArguments_eq_magic_iff.mp (read_standard_iff.mp h)
    exact ⟨before, after, _, rfl, keyArguments_iff.mp hbefore,
      read_standard_magic_iff.mpr ⟨rfl, hafter⟩⟩
  read_magic_table {after keys request} h hlisting := by
    have hmagic : Request.ofArguments ([] ++ "magic" :: after) = .ok (.run ⟨keys, some request⟩) :=
      read_standard_iff.mp h
    have htable := Request.ofArguments_insert_table keyArguments_nil hlisting hmagic
    rw [List.nil_append] at htable
    exact read_standard_iff.mpr htable

end Reader

end PerfectKeys
