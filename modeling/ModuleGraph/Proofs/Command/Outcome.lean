import ModuleGraph.Command.Run
import ModuleGraph.Proofs.Build.Outcome
import ModuleGraph.Proofs.Disk.Writing

/-!
# What a command comes to

A command goes through stages, and the first that fails is what it ends with. `Ends` lists the ways
in which the command for a graph ends: without settings, without files to look at, without a graph,
with a graph that the terminal or the disk refuses, or with one that is printed or written.
Everything that is said of its report is read off this list: which stage decides the exit code, that
a failure prints nothing and leaves the disk as it was, and that a success leaves nothing behind but
the rendering, on the terminal or in the file that it was asked for (`report_build`).
-/

namespace ModuleGraph.Command

open Text

variable {command : Command} {machine : Machine} {disk : Disk} {settings : Settings}
  {discovery : Discovery} {output : Option Path} {format : Format}

/-- The settings are had, and the files are found. -/
structure Scans (command : Command) (disk : Disk) (settings : Settings) (discovery : Discovery) :
    Prop where
  loads : command.settings disk = .ok settings
  finds : Discovery.ofRoot disk command.root settings = .ok discovery

theorem Scans.unique {settings' : Settings} {discovery' : Discovery}
    (h : command.Scans disk settings discovery) (h' : command.Scans disk settings' discovery') :
    settings = settings' ∧ discovery = discovery' := by
  have hsettings := Except.ok.inj (h.loads.symm.trans h'.loads)
  subst hsettings
  exact ⟨rfl, Except.ok.inj (h.finds.symm.trans h'.finds)⟩

/-- Settings that cannot be had, a root that cannot be entered, or a pattern that is no glob. -/
inductive ScanFails (command : Command) (disk : Disk) : Failure → Prop
  | settings {e : SettingsError} : command.settings disk = .error e →
      ScanFails command disk (.settings e)
  | discovery {settings : Settings} {e : DiscoveryError} : command.settings disk = .ok settings →
      Discovery.ofRoot disk command.root settings = .error e →
      ScanFails command disk (.discovery e)

theorem ScanFails.not_scans {failure : Failure} (h : command.ScanFails disk failure) :
    ¬ command.Scans disk settings discovery := by
  rintro ⟨hloads, hfinds⟩
  cases h with
  | settings h => cases h.symm.trans hloads
  | discovery h hfails =>
      cases h.symm.trans hloads
      cases hfails.symm.trans hfinds

theorem ScanFails.exit {failure : Failure} (h : command.ScanFails disk failure) :
    failure.exit = 1 := by
  cases h with
  | settings => rfl
  | discovery => rfl

theorem scan_of_scans (h : command.Scans disk settings discovery) :
    command.scan disk = .ok (settings, discovery) := by
  rw [scan, h.loads]
  simp only [mapError_ok, bind, Except.bind, h.finds]
  rfl

theorem scan_of_fails {failure : Failure} (h : command.ScanFails disk failure) :
    command.scan disk = .error failure := by
  cases h with
  | settings h =>
      rw [scan, h]
      rfl
  | discovery h hfails =>
      rw [scan, h]
      simp only [mapError_ok, mapError_error, bind, Except.bind, hfails]

theorem scans_or_fails (command : Command) (disk : Disk) :
    (∃ failure, command.ScanFails disk failure) ∨
      ∃ settings discovery, command.Scans disk settings discovery := by
  cases hsettings : command.settings disk with
  | error e => exact Or.inl ⟨_, .settings hsettings⟩
  | ok settings => cases hdiscovery : Discovery.ofRoot disk command.root settings with
    | error e => exact Or.inl ⟨_, .discovery hsettings hdiscovery⟩
    | ok discovery => exact Or.inr ⟨settings, discovery, hsettings, hdiscovery⟩

/-! ## The ways in which a build ends -/

/-- The text that is delivered for a graph. -/
def text (graph : Graph) (format : Format) : String :=
  endLine (graph.render format)

theorem endLine_ends (text : String) : (endLine text).toList.getLast? = some '\n' := by
  rw [endLine]
  split
  · next h => exact h
  · rw [String.toList_append]
    exact List.getLast?_concat

theorem text_ne_empty (graph : Graph) (format : Format) : text graph format ≠ "" := by
  intro h
  have hlast := endLine_ends (graph.render format)
  rw [← text, h] at hlast
  cases hlast

/-- The command for a graph ends so. -/
inductive Ends (command : Command) (machine : Machine) (output : Option Path) (format : Format)
    (disk : Disk) : Except Failure (String × Disk) → Prop
  | unscanned {failure : Failure} : command.ScanFails disk failure →
      Ends command machine output format disk (.error failure)
  | unbuilt {settings : Settings} {discovery : Discovery} {e : BuildFailure} :
      command.Scans disk settings discovery →
      buildOn machine.workers (discovery.source disk) settings = .error e →
      Ends command machine output format disk (.error (.build discovery.root.path e))
  | unprinted {settings : Settings} {discovery : Discovery} {graph : Graph} {cause : String} :
      command.Scans disk settings discovery →
      buildOn machine.workers (discovery.source disk) settings = .ok graph → output = none →
      machine.terminal = some cause →
      Ends command machine output format disk (.error (.terminal cause))
  | unwritten {settings : Settings} {discovery : Discovery} {graph : Graph} {path : Path}
      {cause : FileError} : command.Scans disk settings discovery →
      buildOn machine.workers (discovery.source disk) settings = .ok graph → output = some path →
      disk.write path (text graph format) = .error cause →
      Ends command machine output format disk (.error (.output path cause))
  | printed {settings : Settings} {discovery : Discovery} {graph : Graph} :
      command.Scans disk settings discovery →
      buildOn machine.workers (discovery.source disk) settings = .ok graph → output = none →
      machine.terminal = none →
      Ends command machine output format disk (.ok (text graph format, disk))
  | written {settings : Settings} {discovery : Discovery} {graph : Graph} {path : Path}
      {disk' : Disk} : command.Scans disk settings discovery →
      buildOn machine.workers (discovery.source disk) settings = .ok graph → output = some path →
      disk.write path (text graph format) = .ok disk' →
      Ends command machine output format disk (.ok ("", disk'))

theorem ends_run (h : command.action = .build output format) :
    command.Ends machine output format disk (command.run disk machine) := by
  rcases command.scans_or_fails disk with ⟨failure, hfails⟩ | ⟨settings, discovery, hscans⟩
  · rw [run, scan_of_fails hfails]
    exact .unscanned hfails
  · rw [run, scan_of_scans hscans]
    simp only [bind, Except.bind, h, rendered]
    cases hbuild : buildOn machine.workers (discovery.source disk) settings with
    | error e => exact .unbuilt hscans hbuild
    | ok graph => cases output with
      | none =>
          have hne : endLine (graph.render format) ≠ "" := text_ne_empty graph format
          cases hterminal : machine.terminal with
          | none =>
              simp only [mapError_ok, pure, Except.pure, Command.printed, hterminal]
              exact .printed hscans hbuild rfl hterminal
          | some cause =>
              simp only [mapError_ok, pure, Except.pure, Command.printed, hterminal, if_neg hne]
              exact .unprinted hscans hbuild rfl hterminal
      | some path =>
          simp only [mapError_ok]
          cases hwrite : disk.write path (text graph format) with
          | error cause =>
              rw [text] at hwrite
              simp only [pure, Except.pure, hwrite]
              exact .unwritten hscans hbuild rfl hwrite
          | ok disk' =>
              have hwritten := hwrite
              rw [text] at hwritten
              simp only [pure, Except.pure, hwritten]
              exact .written hscans hbuild rfl hwrite

/-- A text can be delivered: the terminal takes it, or the file can be written. -/
def Deliverable (machine : Machine) (output : Option Path) (text : String) (disk : Disk) : Prop :=
  match output with
  | none => machine.terminal = none
  | some path => ∃ disk', disk.write path text = .ok disk'

theorem buildOn_eq_noFilesFound_iff_files {refusal? : Nat → Option String} :
    buildOn refusal? (discovery.source disk) settings = .error (.failed .noFilesFound) ↔
      discovery.files = [] := by
  rw [buildOn_eq_noFilesFound_iff]
  exact List.map_eq_nil_iff

variable {result : Except Failure (String × Disk)}

/-- A build succeeds if no stage fails. -/
theorem Ends.exists_ok_iff (h : command.Ends machine output format disk result) :
    (∃ success, result = .ok success) ↔ ∃ settings discovery graph,
      command.Scans disk settings discovery ∧
      buildOn machine.workers (discovery.source disk) settings = .ok graph ∧
      Deliverable machine output (text graph format) disk := by
  cases h with
  | unscanned hfails =>
      refine iff_of_false (fun ⟨_, heq⟩ => by cases heq) ?_
      rintro ⟨_, _, _, hscans, -, -⟩
      exact hfails.not_scans hscans
  | unbuilt hscans hbuild =>
      refine iff_of_false (fun ⟨_, heq⟩ => by cases heq) ?_
      rintro ⟨_, _, _, hscans', hbuild', -⟩
      obtain ⟨rfl, rfl⟩ := hscans.unique hscans'
      cases hbuild.symm.trans hbuild'
  | unprinted _ _ houtput hterminal =>
      refine iff_of_false (fun ⟨_, heq⟩ => by cases heq) ?_
      rintro ⟨_, _, _, -, -, hdelivers⟩
      rw [houtput] at hdelivers
      cases hterminal.symm.trans hdelivers
  | unwritten hscans hbuild houtput hwrite =>
      refine iff_of_false (fun ⟨_, heq⟩ => by cases heq) ?_
      rintro ⟨_, _, _, hscans', hbuild', hdelivers⟩
      obtain ⟨rfl, rfl⟩ := hscans.unique hscans'
      cases hbuild.symm.trans hbuild'
      rw [houtput] at hdelivers
      obtain ⟨disk', hwritten⟩ := hdelivers
      cases hwrite.symm.trans hwritten
  | printed hscans hbuild houtput hterminal =>
      refine iff_of_true ⟨_, rfl⟩ ⟨_, _, _, hscans, hbuild, ?_⟩
      rw [houtput]
      exact hterminal
  | written hscans hbuild houtput hwrite =>
      refine iff_of_true ⟨_, rfl⟩ ⟨_, _, _, hscans, hbuild, ?_⟩
      rw [houtput]
      exact ⟨_, hwrite⟩

/-- A build fails for want of files if it gets as far as to look for some. -/
theorem Ends.noFilesFound_iff (h : command.Ends machine output format disk result) :
    (∃ root, result = .error (.build root (.failed .noFilesFound))) ↔
      ∃ settings discovery, command.Scans disk settings discovery ∧ discovery.files = [] := by
  have hfound : ∀ {settings : Settings} {discovery : Discovery} {graph : Graph},
      command.Scans disk settings discovery →
      buildOn machine.workers (discovery.source disk) settings = .ok graph →
      ¬ ∃ settings discovery, command.Scans disk settings discovery ∧ discovery.files = [] := by
    rintro settings discovery graph hscans hbuild ⟨_, _, hscans', hfiles⟩
    obtain ⟨rfl, rfl⟩ := hscans.unique hscans'
    cases hbuild.symm.trans (buildOn_eq_noFilesFound_iff_files.2 hfiles)
  cases h with
  | unscanned hfails =>
      constructor
      · rintro ⟨_, heq⟩
        cases heq
        cases hfails
      · rintro ⟨_, _, hscans, -⟩
        exact absurd hscans hfails.not_scans
  | @unbuilt settings discovery e hscans hbuild =>
      constructor
      · rintro ⟨_, heq⟩
        cases heq
        exact ⟨settings, discovery, hscans, buildOn_eq_noFilesFound_iff_files.1 hbuild⟩
      · rintro ⟨_, _, hscans', hfiles⟩
        obtain ⟨rfl, rfl⟩ := hscans.unique hscans'
        cases hbuild.symm.trans (buildOn_eq_noFilesFound_iff_files.2 hfiles)
        exact ⟨_, rfl⟩
  | unprinted hscans hbuild _ _ | unwritten hscans hbuild _ _ =>
      exact iff_of_false (fun ⟨_, heq⟩ => by cases heq) (hfound hscans hbuild)
  | printed hscans hbuild _ _ | written hscans hbuild _ _ =>
      exact iff_of_false (fun ⟨_, heq⟩ => by cases heq) (hfound hscans hbuild)

/-! ## Reports -/

theorem Failure.exit_eq_two_iff {failure : Failure} :
    failure.exit = 2 ↔ ∃ root, failure = .build root (.failed .noFilesFound) := by
  rw [exit.eq_def]
  split
  · next root => exact iff_of_true rfl ⟨root, rfl⟩
  · next hother => exact iff_of_false (by simp) fun ⟨root, heq⟩ => hother root heq

theorem Failure.exit_eq_one_or_two (failure : Failure) : failure.exit = 1 ∨ failure.exit = 2 := by
  rw [exit.eq_def]
  split
  · exact Or.inr rfl
  · exact Or.inl rfl

theorem report_of_ok {text : String} {disk' : Disk}
    (h : command.run disk machine = .ok (text, disk')) :
    command.report disk machine = ({ exit := 0, output := text }, disk') := by
  rw [report, h]

theorem report_of_error {failure : Failure} (h : command.run disk machine = .error failure) :
    command.report disk machine =
      ({ exit := failure.exit, errors := failure.message ++ "\n" }, disk) := by
  rw [report, h]

theorem report_exit_eq_zero_iff : (command.report disk machine).1.exit = 0 ↔
    ∃ success, command.run disk machine = .ok success := by
  cases hrun : command.run disk machine with
  | ok success =>
      rw [report_of_ok hrun]
      exact iff_of_true rfl ⟨success, rfl⟩
  | error failure =>
      rw [report_of_error hrun]
      refine iff_of_false ?_ (fun ⟨_, heq⟩ => by cases heq)
      rcases failure.exit_eq_one_or_two with hexit | hexit <;> simp [hexit]

theorem report_exit_eq_two_iff : (command.report disk machine).1.exit = 2 ↔
    ∃ root, command.run disk machine = .error (.build root (.failed .noFilesFound)) := by
  cases hrun : command.run disk machine with
  | ok success =>
      rw [report_of_ok hrun]
      exact iff_of_false (fun heq => by cases heq) (fun ⟨_, heq⟩ => by cases heq)
  | error failure =>
      rw [report_of_error hrun]
      simp only [Failure.exit_eq_two_iff, Except.error.injEq]

theorem report_exit_cases (command : Command) (machine : Machine) (disk : Disk) :
    (command.report disk machine).1.exit = 0 ∨ (command.report disk machine).1.exit = 1 ∨
      (command.report disk machine).1.exit = 2 := by
  cases hrun : command.run disk machine with
  | ok success =>
      rw [report_of_ok hrun]
      exact Or.inl rfl
  | error failure =>
      rw [report_of_error hrun]
      exact Or.inr failure.exit_eq_one_or_two

/-- Whatever fails, nothing is printed and the disk is as it was. -/
theorem report_of_exit_ne_zero (h : (command.report disk machine).1.exit ≠ 0) :
    (command.report disk machine).1.output = "" ∧ (command.report disk machine).2 = disk := by
  cases hrun : command.run disk machine with
  | ok success =>
      rw [report_of_ok hrun] at h
      exact absurd rfl h
  | error failure =>
      rw [report_of_error hrun]
      exact ⟨rfl, rfl⟩

/-- What is left behind when a text is delivered: with no file to write to, the text is printed and
the disk is as before; with one, nothing is printed, and at the place that the path denotes there is
a file of the text, while all else on the disk is as before. The text is read back there, if files
may be read there. -/
def Delivered (output : Option Path) (text : String) (disk : Disk) (after : Report × Disk) : Prop :=
  match output with
  | none => after.1.output = text ∧ after.2 = disk
  | some path => after.1.output = "" ∧ after.2 = { disk with root := after.2.root } ∧
    ∃ place, disk.locate true path = .ok place ∧
      Disk.PutsFile disk.root after.2.root place (Utf8.encode text) ∧
      (disk.unreadable place = none → after.2.read path = .ok text)

theorem Ends.delivered (h : command.Ends machine output format disk (command.run disk machine))
    (hexit : (command.report disk machine).1.exit = 0) : ∃ settings discovery graph,
      command.Scans disk settings discovery ∧
      buildOn machine.workers (discovery.source disk) settings = .ok graph ∧
      Delivered output (text graph format) disk (command.report disk machine) := by
  obtain ⟨⟨printed, disk'⟩, hrun⟩ := report_exit_eq_zero_iff.1 hexit
  rw [report_of_ok hrun]
  rw [hrun] at h
  cases h with
  | @printed settings discovery graph hscans hbuild houtput _ =>
      refine ⟨settings, discovery, graph, hscans, hbuild, ?_⟩
      rw [houtput]
      exact ⟨rfl, rfl⟩
  | @written settings discovery graph path _ hscans hbuild houtput hwrite =>
      refine ⟨settings, discovery, graph, hscans, hbuild, ?_⟩
      obtain ⟨place, hlocate, hputs, hrest, hread⟩ := Disk.write_eq_ok hwrite
      rw [houtput]
      exact ⟨rfl, hrest, place, hlocate, hputs, hread⟩

/-- The report of a command for a graph, on any machine and any disk. The exit code is 0 exactly if
every stage succeeds, 2 exactly if settings are had and no file is found, and 1 otherwise. Unless it
is 0, nothing is printed and the disk is as before; if it is 0, the rendering is delivered, with the
end of a line at its end. -/
theorem report_build (root : Path) (config : Option Path) (overrides : Overrides)
    (output : Option Path) (format : Format) (machine : Machine) (disk : Disk) :
    let command : Command := ⟨.build output format, root, config, overrides⟩
    let after := command.report disk machine
    (after.1.exit = 0 ↔ ∃ settings discovery graph, command.Scans disk settings discovery ∧
      Starts machine.workers settings ∧ build (discovery.source disk) settings = .ok graph ∧
      Deliverable machine output (text graph format) disk) ∧
    (after.1.exit = 2 ↔ ∃ settings discovery, command.Scans disk settings discovery ∧
      discovery.files = []) ∧
    (after.1.exit = 0 ∨ after.1.exit = 1 ∨ after.1.exit = 2) ∧
    (after.1.exit ≠ 0 → after.1.output = "" ∧ after.2 = disk) ∧
    (after.1.exit = 0 → ∃ settings discovery graph, command.Scans disk settings discovery ∧
      build (discovery.source disk) settings = .ok graph ∧
      (text graph format).toList.getLast? = some '\n' ∧
      Delivered output (text graph format) disk after) := by
  intro command after
  have hends : command.Ends machine output format disk (command.run disk machine) := ends_run rfl
  refine ⟨?_, report_exit_eq_two_iff.trans hends.noFilesFound_iff,
    report_exit_cases command machine disk, report_of_exit_ne_zero, fun hexit => ?_⟩
  · rw [report_exit_eq_zero_iff, hends.exists_ok_iff]
    simp only [buildOn_eq_ok_iff, and_assoc]
  · obtain ⟨settings, discovery, graph, hscans, hbuild, hdelivered⟩ := hends.delivered hexit
    exact ⟨settings, discovery, graph, hscans, (buildOn_eq_ok_iff.1 hbuild).2, endLine_ends _,
      hdelivered⟩

end ModuleGraph.Command
