import ModuleGraph.Command.Run
import ModuleGraph.Proofs.Association
import ModuleGraph.Proofs.Disk.Location
import ModuleGraph.Proofs.Text.Encoding
import ModuleGraph.Proofs.Toml.Document

/-!
# Settings in layers

There are three layers: the default settings, the settings file, and the command line. A file gives
some of the parts (`Given`), each under its key, and the keys may stand in any order, since a part
is looked up by its key (`Given.ofToml?_of_tells`). The command line replaces some parts and extends
another. Dots before extensions are dropped in both places, so no layer lets one through
(`Dotless`).
-/

namespace ModuleGraph

namespace Settings

/-! ## Parts that a document gives -/

/-- The parts of settings that a document gives. -/
structure Given where
  extensions : Option (List String) := none
  excludeDirs : Option (List String) := none
  exclude : Option (List String) := none
  threads : Option Nat := none
  respectGitignore : Option Bool := none

/-- A list of texts as a value. -/
def texts (items : List String) : Toml :=
  .array (items.map .string)

/-- A natural number as a value. -/
def number (n : Nat) : Toml :=
  .integer n

/-- A part under its key, if it is given. -/
def field {α : Type} (key : String) (write : α → Toml) (part : Option α) : Toml.Entries :=
  (part.map fun a => (key, write a)).toList

namespace Given

variable {given : Given} {entries : Toml.Entries}

/-- The pairs of keys and values that give the parts. -/
def pairs (given : Given) : Toml.Entries :=
  field "extensions" texts given.extensions ++ (field "exclude_dirs" texts given.excludeDirs ++
    (field "exclude" texts given.exclude ++ (field "threads" number given.threads ++
      field "respect_gitignore" .boolean given.respectGitignore)))

/-- The given parts, extensions without their dots, and the default for each other part. -/
def settings (given : Given) : Settings where
  extensions := (given.extensions.map (·.map withoutDots)).getD default.extensions
  excludeDirs := given.excludeDirs.getD default.excludeDirs
  exclude := given.exclude.getD default.exclude
  threads := given.threads.or default.threads
  respectGitignore := given.respectGitignore.getD default.respectGitignore

/-- Under the keys of the parts, the entries have these parts and no others. -/
structure Tells (given : Given) (entries : Toml.Entries) : Prop where
  extensions : entries.lookup "extensions" = given.extensions.map texts
  excludeDirs : entries.lookup "exclude_dirs" = given.excludeDirs.map texts
  exclude : entries.lookup "exclude" = given.exclude.map texts
  threads : entries.lookup "threads" = given.threads.map number
  respectGitignore : entries.lookup "respect_gitignore" = given.respectGitignore.map .boolean

theorem strings?_texts (items : List String) : Toml.strings? (texts items) = some items := by
  rw [texts, Toml.strings?, List.mapM_map]
  exact List.mapM_pure.trans (congrArg some (List.map_id items))

/-- A part is read if it is given as it is written. -/
theorem part?_of_lookup {α β : Type} {key : String} {write : β → Toml} {read : Toml → Option α}
    {part : Option β} (convert : β → α) (hread : ∀ b, read (write b) = some (convert b))
    (h : entries.lookup key = part.map write) (default : α) :
    part? entries key read default = some ((part.map convert).getD default) := by
  rw [part?, h]
  cases part with
  | none => rfl
  | some b => exact hread b

/-- A document that tells these parts is read as settings with these parts. -/
theorem ofToml?_of_tells (h : given.Tells entries) : ofToml? entries = some given.settings := by
  have hdots : default.extensions.map withoutDots = default.extensions := by decide
  have hthreads : ∀ n : Nat, (Toml.nat? (number n)).map some = some (some n) := fun _ => rfl
  have hboolean : ∀ b : Bool, Toml.boolean? (.boolean b) = some b := fun _ => rfl
  rw [ofToml?, part?_of_lookup id strings?_texts h.extensions,
    part?_of_lookup id strings?_texts h.excludeDirs, part?_of_lookup id strings?_texts h.exclude,
    part?_of_lookup some hthreads h.threads, part?_of_lookup id hboolean h.respectGitignore]
  simp only [Option.bind_eq_bind, Option.bind_some, Option.map_id_fun, id]
  refine congrArg some ?_
  have hextensions : (given.extensions.getD default.extensions).map withoutDots =
      (given.extensions.map (·.map withoutDots)).getD default.extensions := by
    cases given.extensions with
    | none => exact hdots
    | some extensions => rfl
  have hnumber : (given.threads.map some).getD default.threads =
      given.threads.or default.threads := by
    cases given.threads with
    | none => rfl
    | some n => rfl
  rw [ofWritten, settings, hextensions, hnumber]

/-! ## In any order -/

theorem lookup_field {α : Type} (key other : String) (write : α → Toml) (part : Option α) :
    (field other write part).lookup key = if key = other then part.map write else none := by
  cases part with
  | none => simp [field]
  | some a =>
      by_cases h : key = other
      · simp [field, h]
      · simp [field, h, List.lookup_cons, beq_eq_false_iff_ne.2 h]

theorem keys_field {α : Type} (key : String) (write : α → Toml) (part : Option α) :
    ((field key write part).map (·.1)).Sublist [key] := by
  cases part with
  | none => exact List.nil_sublist _
  | some a => exact List.Sublist.refl _

/-- No two parts have one key. -/
theorem nodup_keys (given : Given) : (given.pairs.map (·.1)).Nodup := by
  have hkeys : (given.pairs.map (·.1)).Sublist (["extensions"] ++ (["exclude_dirs"] ++
      (["exclude"] ++ (["threads"] ++ ["respect_gitignore"])))) := by
    simp only [pairs, List.map_append]
    exact (keys_field _ _ _).append ((keys_field _ _ _).append ((keys_field _ _ _).append
      ((keys_field _ _ _).append (keys_field _ _ _))))
  exact hkeys.nodup (by decide)

theorem tells_pairs (given : Given) : given.Tells given.pairs where
  extensions := by simp [pairs, List.lookup_append, lookup_field]
  excludeDirs := by simp [pairs, List.lookup_append, lookup_field]
  exclude := by simp [pairs, List.lookup_append, lookup_field]
  threads := by simp [pairs, List.lookup_append, lookup_field]
  respectGitignore := by simp [pairs, List.lookup_append, lookup_field]

theorem tells_of_perm (h : entries.Perm given.pairs) : given.Tells entries := by
  have hlookup : ∀ key, entries.lookup key = given.pairs.lookup key :=
    fun key => (Association.lookup_eq_of_perm given.nodup_keys h.symm key).symm
  have htells := given.tells_pairs
  constructor
  · rw [hlookup, htells.extensions]
  · rw [hlookup, htells.excludeDirs]
  · rw [hlookup, htells.exclude]
  · rw [hlookup, htells.threads]
  · rw [hlookup, htells.respectGitignore]

theorem ofText?_of_tells {text : String} (hread : Toml.read? text = some entries)
    (h : given.Tells entries) : ofText? text = some given.settings := by
  rw [ofText?, hread]
  exact ofToml?_of_tells h

/-- A document of the parts, in any order, is read as settings with these parts. -/
theorem ofText?_of_document {text : String} (h : Toml.Document entries text)
    (horder : entries.Perm given.pairs) : ofText? text = some given.settings := by
  have hdiff : (entries.map (·.1)).Nodup :=
    (horder.map _).nodup_iff.2 given.nodup_keys
  exact ofText?_of_tells (Toml.read?_of_document h hdiff) (tells_of_perm horder)

/-- Whatever the parts are, and in whatever order, there is a document of them. -/
theorem exists_document (hthreads : ∀ n ∈ given.threads, n < Toml.natBound)
    (horder : entries.Perm given.pairs) : ∃ text, Toml.Document entries text := by
  refine Toml.exists_document fun pair hpair => ?_
  have hmem := horder.mem_iff.1 hpair
  simp only [pairs, field, List.mem_append, Option.mem_toList,
    Option.map_eq_some_iff] at hmem
  have htexts : ∀ items, ∃ t, Toml.ValueWritten (texts items) t := by
    intro items
    obtain ⟨cs, hcs⟩ := Toml.exists_itemsWritten items
    exact ⟨_, .strings .nil hcs⟩
  rcases hmem with ⟨items, -, rfl⟩ | ⟨items, -, rfl⟩ | ⟨items, -, rfl⟩ | ⟨n, hn, rfl⟩ | ⟨b, -, rfl⟩
  · exact htexts items
  · exact htexts items
  · exact htexts items
  · exact ⟨_, .nat (hthreads n hn) (.decimal (Toml.decimalWritten_write n))⟩
  · cases b with
    | true => exact ⟨_, .true⟩
    | false => exact ⟨_, .false⟩

end Given

/-! ## No dots -/

/-- No extension begins with a dot. -/
def Dotless (settings : Settings) : Prop :=
  ∀ extension ∈ settings.extensions, extension.toList.head? ≠ some '.'

theorem head?_of_mem_withoutDots {extensions : List String} {extension : String}
    (h : extension ∈ extensions.map withoutDots) : extension.toList.head? ≠ some '.' := by
  obtain ⟨written, -, rfl⟩ := List.mem_map.1 h
  exact head?_withoutDots written

theorem dotless_default : default.Dotless := by
  have hall : ∀ extension ∈ default.extensions, extension.toList.head? ≠ some '.' := by decide
  exact hall

/-- Whatever a file gives, dots are dropped. -/
theorem dotless_of_ofText? {text : String} {settings : Settings}
    (h : ofText? text = some settings) : settings.Dotless := by
  obtain ⟨entries, -, hentries⟩ := Option.bind_eq_some_iff.1 h
  simp only [ofToml?, Option.bind_eq_bind, Option.bind_eq_some_iff] at hentries
  obtain ⟨_, -, _, -, _, -, _, -, _, -, heq⟩ := hentries
  cases heq
  exact fun _ => head?_of_mem_withoutDots

theorem Dotless.override {settings : Settings} (h : settings.Dotless) (asked : Overrides) :
    (settings.override asked).Dotless := by
  intro extension hmem
  rw [Settings.override] at hmem
  dsimp only at hmem
  split at hmem
  · exact h extension hmem
  · exact head?_of_mem_withoutDots hmem

/-! ## Files -/

variable {disk : Disk} {path : Path} {text : String} {settings : Settings}

theorem ofFile_of_read (h : disk.read path = .ok text) (hsettings : ofText? text = some settings) :
    ofFile disk path = .ok settings := by
  rw [ofFile, h]
  simp only [hsettings]

theorem ofFile_congr {disk' : Disk} (h : disk.read path = disk'.read path) :
    ofFile disk path = ofFile disk' path := by
  rw [ofFile, ofFile, h]

theorem contains_of_read (h : disk.read path = .ok text) : disk.contains path = true := by
  rw [Disk.read, Disk.readBytes] at h
  rw [Disk.contains, Disk.entry]
  cases hlocate : disk.locate false path with
  | error cause =>
      rw [hlocate] at h
      cases h
  | ok place =>
      simp only [hlocate, bind, Except.bind] at h ⊢
      cases hat : disk.root.at? place with
      | none => simp [hat] at h
      | some e => rfl

theorem dotless_of_ofFile (h : ofFile disk path = .ok settings) : settings.Dotless := by
  rw [ofFile] at h
  split at h
  · cases h
  · split at h
    · next hsettings =>
      cases h
      exact dotless_of_ofText? hsettings
    · cases h

end Settings

namespace Command

open Settings

variable {command : Command} {disk : Disk} {text : String}

/-- The settings below those of the command line. -/
def loaded (command : Command) (disk : Disk) : Except SettingsError Settings :=
  match command.config with
  | some path => ofFile disk path
  | none => ofRoot disk command.root

/-- The settings file that a command looks at. -/
def settingsPath (command : Command) : Path :=
  command.config.getD (command.root.join fileName)

theorem loaded_of_read {settings : Settings} (h : disk.read command.settingsPath = .ok text)
    (hsettings : ofText? text = some settings) : command.loaded disk = .ok settings := by
  rw [settingsPath] at h
  rw [loaded]
  cases hconfig : command.config with
  | some path =>
      rw [hconfig, Option.getD_some] at h
      exact ofFile_of_read h hsettings
  | none =>
      rw [hconfig, Option.getD_none] at h
      simp only [ofRoot, contains_of_read h, if_true]
      exact ofFile_of_read h hsettings

theorem dotless_of_loaded {settings : Settings} (h : command.loaded disk = .ok settings) :
    settings.Dotless := by
  rw [loaded] at h
  split at h
  · exact dotless_of_ofFile h
  · rw [ofRoot] at h
    split at h
    · exact dotless_of_ofFile h
    · cases h
      exact dotless_default

/-- The three layers. Whatever parts are given, and in whatever order, there are documents of them,
and each is read as these parts, without the dots before extensions, and with the default for each
other part; so is any other document that tells these parts, whatever else is in it. These are the
settings that a command loads whose settings file the document is. The options of a command line
replace the loaded extensions, without their dots, and the number of workers, if they give any; they
add globs, and can turn ignore files off. So in the end no extension begins with a dot, whatever
file was loaded, if any. A file that is named by the command line is the only one that is looked
at. -/
theorem settings_layered (given : Given) {pairs : Toml.Entries}
    (hthreads : ∀ n ∈ given.threads, n < Toml.natBound) (horder : pairs.Perm given.pairs) :
    (∃ text, Toml.Document pairs text) ∧
    (∀ text, Toml.Document pairs text → ofText? text = some given.settings ∧
      ∀ (command : Command) (disk : Disk), disk.read command.settingsPath = .ok text →
        command.loaded disk = .ok given.settings) ∧
    (∀ (text : String) (entries : Toml.Entries), Toml.read? text = some entries →
      given.Tells entries → ofText? text = some given.settings) ∧
    (∀ (command : Command) (disk : Disk) (loaded : Settings), command.loaded disk = .ok loaded →
      ∃ effective, command.settings disk = .ok effective ∧
        effective.extensions = (if command.overrides.extensions = [] then loaded.extensions
          else command.overrides.extensions.map withoutDots) ∧
        effective.exclude = loaded.exclude ++ command.overrides.exclude ∧
        effective.threads = command.overrides.threads.or loaded.threads ∧
        effective.respectGitignore =
          (loaded.respectGitignore && !command.overrides.noGitignore) ∧
        effective.excludeDirs = loaded.excludeDirs ∧ effective.Dotless) ∧
    (∀ (command : Command) (disk disk' : Disk) (root : Path) (path : Path),
      command.config = some path → disk'.read path = disk.read path →
        ({ command with root } : Command).settings disk' = command.settings disk) := by
  refine ⟨Given.exists_document hthreads horder, ?_, fun _ _ hread => Given.ofText?_of_tells hread,
    ?_, ?_⟩
  · intro text hdocument
    have htext := Given.ofText?_of_document hdocument horder
    exact ⟨htext, fun command disk hread => loaded_of_read hread htext⟩
  · intro command disk loaded hloaded
    have hsettings : command.settings disk = .ok (loaded.override command.overrides) := by
      change (command.loaded disk).map _ = _
      rw [hloaded]
      rfl
    refine ⟨_, hsettings, ?_, rfl, rfl, rfl, rfl,
      (dotless_of_loaded hloaded).override command.overrides⟩
    simp only [Settings.override, List.isEmpty_iff]
  · intro command disk disk' root path hconfig hread
    simp only [Command.settings, hconfig, ofFile_congr hread]

/-- A file of two lines: a number with a sign and an underscore, a comment, an escape and one more
comma in a list, and no end of the last line. Two options are on top of it. -/
theorem settings_layered_of_two_lines :
    let text := "threads = +1_6 #\r\nextensions=[\"..\\u0074s\",]"
    let name := Text.Utf8.encode "import-graph.toml"
    let disk : Disk := { root := .dir [(name, .file (Text.Utf8.encode text))] }
    let command : Command :=
      { action := .files, root := Path.ofString "/", config := none
        overrides := { exclude := ["*.d.ts"], noGitignore := true } }
    command.settings disk =
      .ok { extensions := ["ts"], excludeDirs := ["node_modules"], exclude := ["*.d.ts"]
            threads := some 16, respectGitignore := false } := by
  intro text name disk command
  let given : Given := { extensions := some ["..ts"], threads := some 16 }
  let pairs : Toml.Entries := [("threads", number 16), ("extensions", texts ["..ts"])]
  have hdocument : Toml.Document pairs text := by
    have hnone : Toml.Spaces [] := fun _ h => absurd h List.not_mem_nil
    have hspace : Toml.Spaces [' '] := by simp [Toml.Spaces, Toml.isSpace]
    have hcomment : Toml.Comment ['#'] := .words fun _ h => absurd h List.not_mem_nil
    have hdigits : Toml.DecimalWritten (Text.Decimal.value ['1', '6']) ['1', '_', '6'] :=
      .digits rfl (by decide) (.underscore rfl .nil)
    have hthreads : Toml.ValueWritten (number 16) ['+', '1', '_', '6'] :=
      .nat (by decide) (.plus hdigits)
    have hextension : Toml.BasicWritten "..ts".toList
        ['.', '.', '\\', 'u', '0', '0', '7', '4', 's'] :=
      .plain rfl (by decide) (by decide) (.plain rfl (by decide) (by decide)
        (@Toml.BasicWritten.short ['0', '0', '7', '4'] 0x74 't' _ _ rfl (by decide) rfl
          (.plain rfl (by decide) (by decide) .nil)))
    have hextensions := Toml.ValueWritten.strings .nil (.cons hextension .nil .nil .nil)
    have hkey : ∀ key ∈ ["threads", "extensions"], Toml.KeyWritten key key.toList := by
      intro key hmem
      have hbare : ∀ key ∈ ["threads", "extensions"], key.toList ≠ [] ∧
          ∀ c ∈ key.toList, Toml.isBare c = true := by simp [Toml.isBare]
      exact .bare (hbare key hmem).1 (hbare key hmem).2
    have hlast := Toml.Written.pair hnone (hkey "extensions" (by simp)) hnone hnone hextensions
      (.last hnone .none) .nil
    exact .plain (.pair hnone (hkey "threads" (by simp)) hspace hspace hthreads
      (.line hspace hcomment .crlf) hlast)
  have horder : pairs.Perm given.pairs := List.Perm.swap _ _ _
  have hread : disk.read command.settingsPath = .ok text := by
    have hpath : command.settingsPath = Location.path [name] := by decide +kernel
    have hwell : disk.root.WellFormed := by decide +kernel
    have hbytes : disk.readBytes (Location.path [name]) = .ok (Text.Utf8.encode text) :=
      Disk.readBytes_path hwell rfl (List.cons_ne_nil _ _)
    rw [hpath, Disk.read, hbytes]
    simp only [bind, Except.bind, Text.Utf8.decode?_encode]
  have hbound : ∀ n ∈ given.threads, n < Toml.natBound := by
    intro n hn
    cases hn
    decide
  obtain ⟨-, hdocuments, -, heffective, -⟩ := settings_layered given hbound horder
  obtain ⟨effective, hok, hextensions, hexclude, hthreads, hignore, hdirs, -⟩ :=
    heffective command disk _ ((hdocuments text hdocument).2 command disk hread)
  obtain ⟨_, _, _, _, _⟩ := effective
  cases hextensions
  cases hexclude
  cases hthreads
  cases hignore
  cases hdirs
  exact hok

end Command

end ModuleGraph
