import ModuleGraph.Proofs.Build.Outcome

/-!
# The order in which the files are read does not matter

Several workers may read the files of a project. Each file has a slot, which is pending at first;
in one step a worker takes some pending file, whichever it likes, and fills the slot of that file
with its edges or with the reason why it cannot be read (`Fills`). A schedule is a run of such
steps that leaves no slot pending. Only then are the edges entered, slot by slot and up to the
first failure (`enter`).

What workers can reach is said in full by `runs_iff`: they take different files, and the slots are
a function of which ones have been taken (`slotsAfter`), not of the order or of the workers. This
is the invariant that all schedules share. Once every file is taken it leaves one possibility, so
all schedules end in the same slots, a schedule in which a later file fails before an earlier one
among them; and as long as a file is pending, any worker can go on.

`buildInOrder` has no slots at all: it reads a file, enters its edges and goes on with the next one
unless the file cannot be read. All schedules return what it returns (`build_any_schedule`).
-/

namespace ModuleGraph

open Project

/-! ## Slots and the steps of workers -/

/-- The slots of a project, in the order of its files; a pending one is `none`. -/
abbrev Slots := List (Option (Except BuildError (List Edge)))

/-- What a worker does in one step: who it is, and the place of the file it takes. -/
structure Turn where
  worker : Nat
  place : Nat

variable {project : Project} {read : Path → Except FileError String} {crew : Nat}

/-- One of the workers `0, …, crew - 1` takes a pending file and fills its slot. -/
inductive Fills (project : Project) (read : Path → Except FileError String) (crew : Nat) :
    Slots → Turn → Slots → Prop
  | mk {slots : Slots} {turn : Turn} {file : Path × FileId} : turn.worker < crew →
      slots[turn.place]? = some none → project.files[turn.place]? = some file →
      Fills project read crew slots turn (slots.set turn.place (some (project.slot read file)))

/-- Steps one after the other. -/
inductive Runs (project : Project) (read : Path → Except FileError String) (crew : Nat) :
    Slots → List Turn → Slots → Prop
  | nil {slots : Slots} : Runs project read crew slots [] slots
  | cons {slots slots' slots'' : Slots} {turn : Turn} {turns : List Turn} :
      Fills project read crew slots turn slots' → Runs project read crew slots' turns slots'' →
      Runs project read crew slots (turn :: turns) slots''

/-- Before the first step every slot is pending. -/
def pending (project : Project) : Slots :=
  project.files.map fun _ => none

/-- The edges of the slots, entered one slot after the other up to the first failure. -/
def enter (graph : Graph) : List (Except BuildError (List Edge)) → Except BuildError Graph
  | [] => .ok graph
  | .error e :: _ => .error e
  | .ok edges :: rest => enter (edges.foldl (fun g edge => (g.addEdge edge).1) graph) rest

/-- How many workers there are: as many as are asked for, or as the machine has if none are. -/
def crewOf (machine : Nat) : Option Nat → Nat
  | some (n + 1) => n + 1
  | some 0 | none => machine

/-- What a build may return when `crew` workers read its files. -/
inductive Returns (source : Source) (settings : Settings) (crew : Nat) :
    Except BuildError Graph → Prop
  | noFiles : (ofPaths source.paths settings.extensions).files = [] →
      Returns source settings crew (.error .noFilesFound)
  | filled {turns : List Turn} {filled : List (Except BuildError (List Edge))} :
      (ofPaths source.paths settings.extensions).files ≠ [] →
      Runs (ofPaths source.paths settings.extensions) source.read crew
        (pending (ofPaths source.paths settings.extensions)) turns (filled.map some) →
      Returns source settings crew
        (enter ((ofPaths source.paths settings.extensions).graph []) filled)

/-! ## What workers can reach -/

/-- The slots when the files at the places `taken` have been read. -/
def slotsAfter (project : Project) (read : Path → Except FileError String) (taken : List Nat) :
    Slots :=
  project.files.mapIdx fun place file =>
    if place ∈ taken then some (project.slot read file) else none

theorem getElem?_slotsAfter (project : Project) (read : Path → Except FileError String)
    (taken : List Nat) (place : Nat) :
    (slotsAfter project read taken)[place]? = project.files[place]?.map fun file =>
      if place ∈ taken then some (project.slot read file) else none :=
  List.getElem?_mapIdx

theorem pending_eq_slotsAfter (project : Project) (read : Path → Except FileError String) :
    pending project = slotsAfter project read [] := by
  refine List.ext_getElem? fun place => ?_
  rw [getElem?_slotsAfter, pending, List.getElem?_map]
  simp only [List.not_mem_nil, if_false]

/-- Only which files have been taken matters. -/
theorem slotsAfter_congr {taken taken' : List Nat} (h : ∀ place, place ∈ taken ↔ place ∈ taken') :
    slotsAfter project read taken = slotsAfter project read taken' := by
  refine List.ext_getElem? fun place => ?_
  rw [getElem?_slotsAfter, getElem?_slotsAfter]
  simp only [h]

/-- The slot of a file that is taken is filled, and no other slot changes. -/
theorem set_slotsAfter {taken : List Nat} {place : Nat} {file : Path × FileId}
    (hfile : project.files[place]? = some file) :
    (slotsAfter project read taken).set place (some (project.slot read file)) =
      slotsAfter project read (place :: taken) := by
  have hlt : place < (slotsAfter project read taken).length := by
    rw [slotsAfter, List.length_mapIdx]
    exact (List.getElem?_eq_some_iff.1 hfile).1
  refine List.ext_getElem? fun other => ?_
  rw [List.getElem?_set, getElem?_slotsAfter, getElem?_slotsAfter]
  by_cases hother : place = other
  · subst hother
    rw [if_pos rfl, if_pos hlt, hfile, Option.map_some, if_pos List.mem_cons_self]
  · rw [if_neg hother]
    simp only [List.mem_cons, Ne.symm hother, false_or]

/-- A worker can take a file exactly if it is there and has not been taken. -/
theorem fills_iff {taken : List Nat} {turn : Turn} {slots : Slots} :
    Fills project read crew (slotsAfter project read taken) turn slots ↔
      turn.worker < crew ∧ turn.place < project.files.length ∧ turn.place ∉ taken ∧
        slots = slotsAfter project read (turn.place :: taken) := by
  constructor
  · rintro ⟨hworker, hslot, hfile⟩
    refine ⟨hworker, (List.getElem?_eq_some_iff.1 hfile).1, ?_, set_slotsAfter hfile⟩
    intro htaken
    rw [getElem?_slotsAfter, hfile, Option.map_some, if_pos htaken] at hslot
    cases hslot
  · rintro ⟨hworker, hlt, hnew, rfl⟩
    have hfile := List.getElem?_eq_getElem hlt
    rw [← set_slotsAfter hfile]
    refine .mk hworker ?_ hfile
    rw [getElem?_slotsAfter, hfile, Option.map_some, if_neg hnew]

/-- Workers can take any files that are different from each other and from those taken before, in
any order, and what they reach does not depend on the order or on who takes which. -/
theorem runs_iff {taken : List Nat} {turns : List Turn} {slots : Slots} :
    Runs project read crew (slotsAfter project read taken) turns slots ↔
      (∀ turn ∈ turns, turn.worker < crew ∧ turn.place < project.files.length ∧
        turn.place ∉ taken) ∧
      (turns.map (·.place)).Nodup ∧
      slots = slotsAfter project read (turns.map (·.place) ++ taken) := by
  induction turns generalizing taken slots with
  | nil =>
      constructor
      · rintro ⟨⟩
        exact ⟨fun _ h => absurd h List.not_mem_nil, List.nodup_nil, rfl⟩
      · rintro ⟨-, -, rfl⟩
        exact .nil
  | cons turn turns ih =>
      have hperm : slotsAfter project read (turns.map (·.place) ++ turn.place :: taken) =
          slotsAfter project read ((turn :: turns).map (·.place) ++ taken) :=
        slotsAfter_congr fun place => List.perm_middle.mem_iff
      rw [List.map_cons, List.nodup_cons, List.forall_mem_cons]
      constructor
      · intro h
        cases h with
        | cons hstep hrest =>
            obtain ⟨hworker, hlt, hnew, rfl⟩ := fills_iff.1 hstep
            obtain ⟨hturns, hdiff, rfl⟩ := ih.1 hrest
            refine ⟨⟨⟨hworker, hlt, hnew⟩, ?_⟩, ⟨?_, hdiff⟩, hperm⟩
            · intro other hother
              obtain ⟨hw, hl, hn⟩ := hturns other hother
              exact ⟨hw, hl, fun htaken => hn (List.mem_cons_of_mem _ htaken)⟩
            · intro hmem
              obtain ⟨other, hother, heq⟩ := List.mem_map.1 hmem
              exact (hturns other hother).2.2 (heq ▸ List.mem_cons_self)
      · rintro ⟨⟨⟨hworker, hlt, hnew⟩, hturns⟩, ⟨hfirst, hdiff⟩, rfl⟩
        refine .cons (fills_iff.2 ⟨hworker, hlt, hnew, rfl⟩) (ih.2 ⟨?_, hdiff, hperm.symm⟩)
        intro other hother
        obtain ⟨hw, hl, hn⟩ := hturns other hother
        refine ⟨hw, hl, ?_⟩
        rw [List.mem_cons, not_or]
        exact ⟨fun heq => hfirst (heq ▸ List.mem_map_of_mem hother), hn⟩

/-! ## Schedules end in one way -/

/-- The slots hold no pending one exactly if every file has been taken. -/
theorem slotsAfter_eq_map_some_iff {taken : List Nat}
    {filled : List (Except BuildError (List Edge))} :
    slotsAfter project read taken = filled.map some ↔
      (∀ place < project.files.length, place ∈ taken) ∧
        filled = project.files.map (project.slot read) := by
  have hall : (∀ place < project.files.length, place ∈ taken) →
      slotsAfter project read taken = (project.files.map (project.slot read)).map some := by
    intro h
    refine List.ext_getElem? fun place => ?_
    rw [getElem?_slotsAfter, List.getElem?_map, List.getElem?_map, Option.map_map]
    by_cases hlt : place < project.files.length
    · simp only [h place hlt, if_true, Function.comp_def]
    · rw [List.getElem?_eq_none (Nat.le_of_not_lt hlt)]
      rfl
  constructor
  · intro h
    have htaken : ∀ place < project.files.length, place ∈ taken := by
      intro place hlt
      have hslot := getElem?_slotsAfter project read taken place
      rw [h, List.getElem?_map, List.getElem?_eq_getElem hlt, Option.map_some] at hslot
      obtain ⟨slot, -, hsome⟩ := Option.map_eq_some_iff.1 hslot
      by_cases hmem : place ∈ taken
      · exact hmem
      · rw [if_neg hmem] at hsome
        cases hsome
    refine ⟨htaken, ?_⟩
    rw [hall htaken] at h
    exact (List.map_inj_right fun _ _ => Option.some.inj).1 h.symm
  · rintro ⟨htaken, rfl⟩
    exact hall htaken

/-- However far the workers have come, they can finish. -/
theorem exists_runs_of_taken (project : Project) (read : Path → Except FileError String)
    (h : 0 < crew) (taken : List Nat) :
    ∃ turns, Runs project read crew (slotsAfter project read taken) turns
      ((project.files.map (project.slot read)).map some) := by
  let left := (List.range project.files.length).filter (· ∉ taken)
  have hplaces : (left.map (Turn.mk 0)).map (·.place) = left := by
    rw [List.map_map]
    exact List.map_id left
  have hleft : ∀ place, place ∈ left ↔ place < project.files.length ∧ place ∉ taken := by
    intro place
    simp only [left, List.mem_filter, List.mem_range, decide_eq_true_eq]
  refine ⟨left.map (Turn.mk 0), runs_iff.2 ⟨?_, ?_, ?_⟩⟩
  · intro turn hturn
    obtain ⟨place, hplace, rfl⟩ := List.mem_map.1 hturn
    exact ⟨h, (hleft place).1 hplace⟩
  · rw [hplaces]
    exact List.nodup_range.filter _
  · rw [hplaces, eq_comm, slotsAfter_eq_map_some_iff]
    refine ⟨?_, rfl⟩
    intro place hlt
    by_cases hmem : place ∈ taken
    · exact List.mem_append_right _ hmem
    · exact List.mem_append_left _ ((hleft place).2 ⟨hlt, hmem⟩)

/-! ## From the slots to the graph -/

/-- Entering slot by slot is entering what is gathered from all of them. -/
theorem enter_eq_gather (graph : Graph) (slots : List (Except BuildError (List Edge))) :
    enter graph slots = (gather slots).map fun edges =>
      edges.foldl (fun g edge => (g.addEdge edge).1) graph := by
  induction slots generalizing graph with
  | nil => rfl
  | cons slot slots ih =>
      cases slot with
      | error e => rfl
      | ok edges =>
          rw [enter, ih, gather]
          cases gather slots with
          | error e => rfl
          | ok later =>
              simp only [Except.map, List.foldl_append]

/-- The files one by one: each is read and its edges are entered before the next is looked at. -/
def readInOrder (project : Project) (read : Path → Except FileError String) (graph : Graph) :
    List (Path × FileId) → Except BuildError Graph
  | [] => .ok graph
  | file :: rest =>
    match read file.1 with
    | .error cause => .error (.unreadable file.1 cause)
    | .ok text =>
      readInOrder project read
        ((project.edgesOf file.2 text).foldl (fun g edge => (g.addEdge edge).1) graph) rest

theorem enter_map_slot (graph : Graph) (files : List (Path × FileId)) :
    enter graph (files.map (project.slot read)) = readInOrder project read graph files := by
  induction files generalizing graph with
  | nil => rfl
  | cons file files ih =>
      rw [List.map_cons, slot, readInOrder]
      cases read file.1 with
      | error cause => rfl
      | ok text => exact ih _

/-- A build without workers: a node for each file, and then the files one by one. -/
def buildInOrder (source : Source) (settings : Settings) : Except BuildError Graph :=
  let project := ofPaths source.paths settings.extensions
  if project.files.isEmpty then .error .noFilesFound
  else readInOrder project source.read (project.graph []) project.files

theorem build_eq_buildInOrder (source : Source) (settings : Settings) :
    build source settings = buildInOrder source settings := by
  rw [build, buildInOrder, ← enter_map_slot, enter_eq_gather]
  rfl

/-- Every schedule returns what a build without workers returns, and there is a schedule. -/
theorem returns_iff {source : Source} {settings : Settings} (h : 0 < crew)
    {outcome : Except BuildError Graph} :
    Returns source settings crew outcome ↔ outcome = buildInOrder source settings := by
  constructor
  · intro hreturns
    cases hreturns with
    | noFiles hnil =>
        simp only [buildInOrder, hnil]
        rfl
    | filled hne hruns =>
        rw [pending_eq_slotsAfter _ source.read] at hruns
        obtain ⟨-, -, hslots⟩ := runs_iff.1 hruns
        obtain ⟨-, rfl⟩ := slotsAfter_eq_map_some_iff.1 hslots.symm
        rw [enter_map_slot, buildInOrder]
        simp only [List.isEmpty_iff, if_neg hne]
  · rintro rfl
    by_cases hnil : (ofPaths source.paths settings.extensions).files = []
    · simp only [buildInOrder, hnil]
      exact .noFiles hnil
    · obtain ⟨turns, hruns⟩ := exists_runs_of_taken _ source.read h []
      rw [← pending_eq_slotsAfter] at hruns
      have hreturns := Returns.filled hnil hruns
      rw [enter_map_slot] at hreturns
      rw [buildInOrder]
      simp only [List.isEmpty_iff, if_neg hnil]
      exact hreturns

/-! ## The number of workers -/

theorem crewOf_pos {machine : Nat} (h : 0 < machine) (threads : Option Nat) :
    0 < crewOf machine threads := by
  cases threads with
  | none => exact h
  | some n =>
      cases n with
      | zero => exact h
      | succ n => exact Nat.succ_pos n

/-- A build is the same as one that reads the files one by one in the order of the list, in its
graph and in its failure. However many workers are asked for, every schedule returns this, and
whatever they have done so far can be completed to a schedule. -/
theorem build_any_schedule {machine : Nat} (h : 0 < machine) (source : Source)
    (settings : Settings) :
    build source settings = buildInOrder source settings ∧
    (∀ threads outcome,
      Returns source { settings with threads } (crewOf machine threads) outcome ↔
        outcome = buildInOrder source settings) ∧
    ∀ threads turns slots,
      let project := ofPaths source.paths settings.extensions
      Runs project source.read (crewOf machine threads) (pending project) turns slots →
        ∃ more filled, Runs project source.read (crewOf machine threads) slots more
          (List.map some filled) := by
  refine ⟨build_eq_buildInOrder source settings, ?_, ?_⟩
  · intro threads outcome
    exact returns_iff (crewOf_pos h threads)
  · intro threads turns slots project hruns
    rw [pending_eq_slotsAfter project source.read] at hruns
    obtain ⟨-, -, rfl⟩ := runs_iff.1 hruns
    obtain ⟨more, hmore⟩ := exists_runs_of_taken project source.read (crewOf_pos h threads)
      (turns.map (·.place) ++ [])
    exact ⟨more, _, hmore⟩

/-- Neither of two files can be read, and the second one fails before the first: it is the first
whose failure is returned. -/
theorem build_any_schedule_late_failure :
    let a := Path.ofString "a.ts"
    let b := Path.ofString "b.ts"
    let source : Source :=
      { paths := [a, b]
        read := fun path => .error (if path = a then .permissionDenied else .notFound) }
    let project := ofPaths source.paths Settings.default.extensions
    ∃ filled, Runs project source.read (crewOf 1 (some 2)) (pending project) [⟨1, 1⟩, ⟨0, 0⟩]
        (List.map some filled) ∧
      enter (project.graph []) filled = .error (.unreadable a .permissionDenied) ∧
      ∃ more rest, Runs project source.read (crewOf 1 (some 2))
        (slotsAfter project source.read [1]) more (List.map some rest) := by
  intro a b source project
  have hids : FileId.ofPath b ∉ [a].map FileId.ofPath := by decide +kernel
  have hfiles : project.files = [(a, FileId.ofPath a), (b, FileId.ofPath b)] := by
    have hb : FileId.ofPath b ∉ (∅ : Std.HashSet FileId).insert (FileId.ofPath a) := by
      rw [Std.HashSet.mem_insert, not_or]
      exact ⟨fun heq => hids (by simp [eq_of_beq heq]), Std.HashSet.not_mem_empty⟩
    change distinct ∅ [a, b] = _
    rw [distinct_of_new _ Std.HashSet.not_mem_empty, distinct_of_new _ hb]
    rfl
  have hruns : Runs project source.read (crewOf 1 (some 2)) (pending project)
      [⟨1, 1⟩, ⟨0, 0⟩] ((project.files.map (project.slot source.read)).map some) := by
    rw [pending_eq_slotsAfter project source.read, runs_iff]
    refine ⟨?_, by decide, ?_⟩
    · rw [hfiles]
      decide
    · rw [eq_comm, slotsAfter_eq_map_some_iff, hfiles]
      exact ⟨by decide, rfl⟩
  have hne : project.files ≠ [] := by
    rw [hfiles]
    exact List.cons_ne_nil _ _
  have hhalf : Runs project source.read (crewOf 1 (some 2)) (pending project) [⟨1, 1⟩]
      (slotsAfter project source.read [1]) := by
    rw [pending_eq_slotsAfter project source.read, runs_iff, hfiles]
    exact ⟨by decide, by decide, rfl⟩
  obtain ⟨hbuild, hreturns, hfinish⟩ :=
    build_any_schedule Nat.one_pos source Settings.default
  have hfirst : FirstUnreadable source a .permissionDenied := by
    refine ⟨[], [b], rfl, List.not_mem_nil, ?_, ?_⟩
    · simp only [source, if_true]
    · rintro path ⟨before, after, hpaths, -⟩
      cases before <;> cases hpaths
  refine ⟨_, hruns, ?_, hfinish (some 2) _ _ hhalf⟩
  rw [← build_of_unreadable Settings.default hfirst, hbuild]
  exact (hreturns (some 2) _).1 (.filled hne hruns)

end ModuleGraph
