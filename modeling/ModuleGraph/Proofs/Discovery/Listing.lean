import ModuleGraph.Proofs.Discovery.Files
import ModuleGraph.Proofs.Disk.Listing

/-!
# Discovery in any listing order

What a walk finds at an entry does not depend on where the entry stands in the list of its
directory: the rules it is judged by come from files, which read the same (`ofDirectory_eq`), and
its own kind and name. So two disks whose directories list the same in different orders have the
same files (`Finds.reordered`), and since these are put in order, discovery gives one answer for
both, and so does a build over it.
-/

namespace ModuleGraph

variable {disk disk' : Disk}

theorem Disk.Reordered.toOption_readBytes_eq (h : disk.Reordered disk') (p : Path) :
    (disk.readBytes p).toOption = (disk'.readBytes p).toOption := by
  rw [h.readBytes_eq]

namespace IgnoreLayer

theorem ofDirectory_eq (h : disk.Reordered disk') (place : Location) :
    ofDirectory disk place = ofDirectory disk' place := by
  simp only [ofDirectory, rulesAt, rulesOf_congr (h.toOption_readBytes_eq _)]

theorem above_eq (h : disk.Reordered disk') (place : Location) :
    above disk place = above disk' place := by
  rw [above, above]
  exact List.map_congr_left fun depth _ => ofDirectory_eq h _

end IgnoreLayer

namespace Discovery

variable {settings : Settings} {file place : Location} {e e' : Entry} {ignore : IgnoreFiles}

theorem ignoreIn_eq (h : disk.Reordered disk') :
    ignoreIn disk settings ignore place = ignoreIn disk' settings ignore place := by
  rw [ignoreIn, ignoreIn, IgnoreLayer.ofDirectory_eq h]

theorem ignoreAbove_eq (h : disk.Reordered disk') (he : e.Reordered e') :
    ignoreAbove disk settings place e = ignoreAbove disk' settings place e' := by
  rw [ignoreAbove, ignoreAbove, he.isDir_eq, IgnoreLayer.above_eq h,
    UserIgnore.ofDisk_congr h.toOption_readBytes_eq h.user_eq.symm h.working_eq.symm]

/-- A walk finds a file in whatever order the directories are listed. -/
theorem Finds.reordered (h : disk.Reordered disk') (he : e.Reordered e')
    (hfinds : Finds disk settings file ignore place e) :
    Finds disk' settings file ignore place e' := by
  induction hfinds generalizing e' with
  | file =>
      cases he
      exact .file
  | @entry ignore place entries name e hmem hvisible hentered _ ih =>
      cases he with
      | dir hperm hbelow =>
          obtain ⟨e', hmem', hinner⟩ := Entry.Reordered.exists_mem (.dir hperm hbelow) hmem
          rw [ignoreIn_eq h] at hvisible ih
          refine .entry hmem' ?_ ?_ (ih hinner)
          · rw [isVisible, ← hinner.isDir_eq]
            exact hvisible
          · rw [isExcludedDir, ← hinner.isDir_eq]
            exact hentered

theorem IsListed.reordered {excluded : List Glob} (h : disk.Reordered disk')
    (hlisted : IsListed disk settings excluded place file) :
    IsListed disk' settings excluded place file := by
  obtain ⟨⟨e, hat, hfinds⟩, hsource, hkept⟩ := hlisted
  have hsame := h.root.at? h.wellFormed place
  rw [hat] at hsame
  generalize hat' : disk'.root.at? place = found at hsame
  cases hsame with
  | @some _ e' he =>
      refine ⟨⟨e', hat', ?_⟩, hsource, hkept⟩
      rw [← ignoreAbove_eq h he]
      exact hfinds.reordered h he

theorem isListed_iff {excluded : List Glob} (h : disk.Reordered disk') :
    IsListed disk settings excluded place file ↔ IsListed disk' settings excluded place file :=
  ⟨.reordered h, .reordered h.symm⟩

theorem ofRoot_eq (h : disk.Reordered disk') (root : Path) (settings : Settings) :
    ofRoot disk root settings = ofRoot disk' root settings := by
  cases hfound : ofRoot disk root settings with
  | error failure =>
      rw [ofRoot_eq_error_iff, h.locate_eq] at hfound
      exact (ofRoot_eq_error_iff.2 hfound).symm
  | ok discovery =>
      rw [ofRoot_eq_ok_iff, h.locate_eq] at hfound
      simp only [isListed_iff h] at hfound
      exact (ofRoot_eq_ok_iff.2 hfound).symm

/-- Directories may list their entries in any order: discovery fails with the same error or lists
the same files, whose paths are strictly increasing, and the build over them has the same
outcome. -/
theorem ofRoot_reordered (h : disk.Reordered disk') (root : Path) (settings : Settings) :
    ofRoot disk root settings = ofRoot disk' root settings ∧
      ∀ discovery, ofRoot disk root settings = .ok discovery →
        (discovery.source disk).paths.Pairwise Path.Precedes ∧
        (discovery.source disk).paths.Nodup ∧
        build (discovery.source disk) settings = build (discovery.source disk') settings := by
  refine ⟨ofRoot_eq h root settings, ?_⟩
  intro discovery hdiscovery
  have hsorted := pairwise_paths h.wellFormed hdiscovery
  refine ⟨hsorted, nodup_of_precedes hsorted, ?_⟩
  rw [source, source, h.read_eq]

/-- The entries of a project are listed backwards; an ignore file is among them, and a directory
whose path is in another order as text. -/
theorem ofRoot_reordered_backwards :
    let entries : List (FileName × Entry) :=
      [(Text.Utf8.encode ".gitignore", .file (Text.Utf8.encode "dist")),
        (Text.Utf8.encode "a.ts", .file (Text.Utf8.encode "import b from './a/b'")),
        (Text.Utf8.encode "a", .dir [(Text.Utf8.encode "b.ts", .file [])]),
        (Text.Utf8.encode "dist", .dir [(Text.Utf8.encode "a.js", .file [])])]
    let disk : Disk := { root := .dir [(Text.Utf8.encode "p", .dir entries)] }
    let disk' : Disk := { root := .dir [(Text.Utf8.encode "p", .dir entries.reverse)] }
    let root := Path.ofString "/p"
    disk.Reordered disk' ∧
      ofRoot disk root Settings.default = ofRoot disk' root Settings.default ∧
      ∀ discovery, ofRoot disk root Settings.default = .ok discovery →
        (discovery.source disk).paths.Pairwise Path.Precedes ∧
        (discovery.source disk).paths.Nodup ∧
        build (discovery.source disk) Settings.default =
          build (discovery.source disk') Settings.default := by
  intro entries disk disk' root
  have hwell : disk.root.WellFormed := by decide +kernel
  have hproject : (Entry.dir entries).Reordered (.dir entries.reverse) :=
    .of_perm (hwell.of_mem List.mem_cons_self).1 (List.reverse_perm entries).symm
  have h : disk.Reordered disk' := by
    refine ⟨hwell, .dir (.refl _) ?_, rfl⟩
    intro name e e' hmem hmem'
    cases List.mem_singleton.1 hmem
    cases List.mem_singleton.1 hmem'
    exact hproject
  exact ⟨h, ofRoot_reordered h root Settings.default⟩

end Discovery

end ModuleGraph
