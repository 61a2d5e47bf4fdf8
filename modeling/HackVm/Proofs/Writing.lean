/-
Writing files.

A file is written to a place in a directory where no directory is (`target_spec`). Afterwards the
file is there, and at every other place there is what was there before (`entryAt_of_write`). So no
directory comes or goes, and nothing is lost: the disk extends the one before (`Disk.Extends`). On
an extension, paths lead where they led before (`Disk.Extends.locate`), and the paths that lead to
directories are the same (`Disk.Extends.locate_dir_iff`).

* **`read_of_write`** — the path of a file that was written leads to the file.
-/
import HackVm.Proofs.Extensions
import HackVm.Proofs.Places

namespace HackVm

/-! ### Trees with a file put in -/

theorem lookup_setEntry (name : String) (node : Node) (entries : List (String × Node))
    (other : String) :
    (setEntry name node entries).lookup other =
      if other = name then some node else entries.lookup other := by
  induction entries with
  | nil =>
    rw [setEntry, List.lookup_cons]
    by_cases h : other = name
    · rw [if_pos h, beq_iff_eq.mpr h]
    · rw [if_neg h, beq_eq_false_iff_ne.mpr h]
  | cons entry rest ih =>
    obtain ⟨key, old⟩ := entry
    rw [setEntry]
    by_cases hkey : key = name
    · subst hkey
      rw [if_pos rfl, List.lookup_cons, List.lookup_cons]
      by_cases h : other = key
      · rw [if_pos h, beq_iff_eq.mpr h]
      · rw [if_neg h, beq_eq_false_iff_ne.mpr h]
    · rw [if_neg hkey, List.lookup_cons, ih, List.lookup_cons]
      by_cases h : other = key
      · subst h
        simp only [beq_self_eq_true, if_neg hkey]
      · rw [beq_eq_false_iff_ne.mpr h]

/-- A file that is put into a directory, where no directory is, is there, and nothing else is
changed. -/
theorem entryAt_put {node : Node} {front : List String} {name : String}
    (hfront : node.entryAt front = some .dir) (hplace : node.entryAt (front ++ [name]) ≠ some .dir)
    (content : List UInt8) (other : List String) :
    ((Node.file content).put node (front ++ [name])).entryAt other =
      if other = front ++ [name] then some (.file content) else node.entryAt other := by
  induction front generalizing node other with
  | nil =>
    obtain ⟨entries, hentries⟩ := entryAt_eq_dir_iff.mp hfront
    rw [Node.get?.eq_1] at hentries
    cases hentries
    rw [List.nil_append] at hplace ⊢
    cases other with
    | nil => rfl
    | cons first rest =>
      rw [Node.put, entryAt_dir_cons, entryAt_dir_cons, lookup_setEntry]
      by_cases hfirst : first = name
      · subst hfirst
        rw [if_pos rfl, Node.put, Option.bind_some]
        cases rest with
        | nil => simp [Node.entry]
        | cons second more =>
          -- there was no directory before, so nothing was below
          rw [entryAt_file_cons, if_neg (by simp)]
          rw [entryAt_dir_cons] at hplace
          cases hlookup : entries.lookup first with
          | none => rfl
          | some old =>
            cases old with
            | file content' => rfl
            | dir entries' => simp [hlookup, Node.entry] at hplace
      · rw [if_neg hfirst, if_neg (by simp [hfirst])]
  | cons first rest ih =>
    cases node with
    | file content' => cases hfront
    | dir entries =>
      rw [entryAt_dir_cons] at hfront
      rw [List.cons_append, entryAt_dir_cons] at hplace
      obtain ⟨child, hchild, hdir⟩ := Option.bind_eq_some_iff.mp hfront
      rw [hchild, Option.bind_some] at hplace
      rw [List.cons_append, Node.put]
      cases other with
      | nil => rfl
      | cons second more =>
        rw [entryAt_dir_cons, entryAt_dir_cons, lookup_setEntry]
        by_cases hsecond : second = first
        · subst hsecond
          simp only [if_true, hchild, Option.getD_some, Option.bind_some, List.cons.injEq,
            true_and]
          exact ih hdir hplace more
        · rw [if_neg hsecond, if_neg (by simp [hsecond])]

/-! ### Where files are written -/

theorem target_eq (disk : Disk) (p : Path) :
    disk.target p = p.check.bind fun _ =>
      match p.pieces.reverse.dropWhile (· = "") with
      | [] => .error .isDirectory
      | name :: before =>
        (before.reverse.foldlM disk.step (disk.start p)).bind fun place =>
          (disk.step place ".").bind fun inside =>
            if name = "." || name = ".." || p.text.toList.getLast? = some '/' then
              .error .isDirectory
            else if 255 < name.utf8ByteSize then .error .nameTooLong
            else if disk.root.entryAt (inside ++ [name]) = some .dir then .error .isDirectory
            else .ok (inside ++ [name]) := by
  unfold Disk.target
  cases p.check with
  | error e => rfl
  | ok u =>
    cases p.pieces.reverse.dropWhile (· = "") with
    | nil => rfl
    | cons name before =>
      simp only [bind, Except.bind]
      cases before.reverse.foldlM disk.step (disk.start p) with
      | error e => rfl
      | ok place =>
        simp only
        cases disk.step place "." with
        | error e => rfl
        | ok inside =>
          simp only
          split
          · rfl
          · simp only [pure, Except.pure]
            split
            · rfl
            · split
              · rename_i entries hget
                rw [if_pos (entryAt_eq_dir_iff.mpr ⟨entries, hget⟩)]
                rfl
              · rename_i hnot
                rw [if_neg fun hdir => (entryAt_eq_dir_iff.mp hdir).elim hnot]

/-- The pieces of a path that is not empty and does not end in a slash end in one that is not
empty. -/
theorem pieces_of_dropWhile {p : Path} (hempty : p.text ≠ "")
    (hslash : p.text.toList.getLast? ≠ some '/') {name : String} {before : List String}
    (h : p.pieces.reverse.dropWhile (· = "") = name :: before) :
    p.pieces = before.reverse ++ [name] ∧ name ≠ "" := by
  have hne : p.pieces ≠ [] := by
    simp [Path.pieces, List.splitOn_ne_nil]
  obtain ⟨front, last, hpieces⟩ := (List.eq_nil_or_concat p.pieces).resolve_left hne
  have hlast : last ≠ "" := by
    rintro rfl
    have htext := intercalate_pieces p
    rw [hpieces] at htext
    by_cases hfront : front = []
    · subst hfront
      exact hempty htext.symm
    · rw [List.concat_eq_append, intercalate_append "/" hfront (by simp)] at htext
      refine hslash ?_
      rw [← htext]
      simp
  rw [hpieces, List.concat_eq_append, List.reverse_append, List.reverse_singleton,
    List.singleton_append, List.dropWhile_cons_of_neg (by simpa using hlast)] at h
  cases h
  exact ⟨by rw [hpieces, List.concat_eq_append, List.reverse_reverse], hlast⟩

/-- Where a file is written: into the directory that the pieces before the last lead to, under the
last as its name, if there is no directory of that name. -/
structure Disk.WritesTo (disk : Disk) (p : Path) (front : List String) (name : String) : Prop where
  check : p.check = .ok ()
  pieces : ∃ before, p.pieces = before ++ [name] ∧
    before.foldlM disk.step (disk.start p) = .ok front
  dir : disk.root.entryAt front = some .dir
  plain : IsPlain name
  short : name.utf8ByteSize ≤ 255
  free : disk.root.entryAt (front ++ [name]) ≠ some .dir

theorem target_spec {disk : Disk} {p : Path} {place : List String} (h : disk.target p = .ok place) :
    ∃ front name, place = front ++ [name] ∧ disk.WritesTo p front name := by
  rw [target_eq] at h
  obtain ⟨u, hcheck, h⟩ := bind_eq_ok_iff.mp h
  split at h
  · cases h
  · rename_i name before hpieces
    obtain ⟨front, hfront, h⟩ := bind_eq_ok_iff.mp h
    obtain ⟨inside, hinside, h⟩ := bind_eq_ok_iff.mp h
    have hdir := dir_of_step hinside
    obtain rfl : front = inside := by
      simpa [step_eq, hdir, isIdle] using hinside
    obtain ⟨hname, h⟩ := ite_error_eq_ok_iff.mp h
    obtain ⟨hsize, h⟩ := ite_error_eq_ok_iff.mp h
    obtain ⟨hfree, h⟩ := ite_error_eq_ok_iff.mp h
    obtain ⟨⟨hdot, hup⟩, hslash⟩ : (name ≠ "." ∧ name ≠ "..") ∧
        p.text.toList.getLast? ≠ some '/' := by
      simpa using hname
    obtain ⟨hlast, hempty⟩ := pieces_of_dropWhile (check_eq_ok_iff.mp hcheck).2.1 hslash hpieces
    have hmem : name ∈ p.pieces := by simp [hlast]
    have hplain : IsPlain name :=
      ⟨by simp [isIdle, hempty, hdot], hup, not_mem_of_mem_pieces hmem⟩
    exact ⟨front, name, (Except.ok.inj h).symm, hcheck, ⟨_, hlast, hfront⟩, hdir, hplain,
      Nat.le_of_not_lt hsize, hfree⟩

theorem write_eq_ok_iff {disk next : Disk} {p : Path} {content : List UInt8} :
    disk.write p content = .ok next ↔
      ∃ place, disk.target p = .ok place ∧
        next = { disk with root := (Node.file content).put disk.root place } := by
  have hwrite : disk.write p content = (disk.target p).bind fun place =>
      .ok { disk with root := (Node.file content).put disk.root place } := rfl
  rw [hwrite, bind_eq_ok_iff]
  simp only [Except.ok.injEq, eq_comm]

/-- After a write the file is at its place, and at every other place is what was there before. -/
theorem entryAt_of_write {disk next : Disk} {p : Path} {content : List UInt8}
    (h : disk.write p content = .ok next) :
    ∃ place, disk.target p = .ok place ∧ disk.root.entryAt place ≠ some .dir ∧
      next.current = disk.current ∧ ∀ other, next.root.entryAt other =
        if other = place then some (.file content) else disk.root.entryAt other := by
  obtain ⟨place, hplace, rfl⟩ := write_eq_ok_iff.mp h
  obtain ⟨front, name, rfl, hwrites⟩ := target_spec hplace
  exact ⟨_, hplace, hwrites.free, rfl, entryAt_put hwrites.dir hwrites.free content⟩

/-- Disks with the same entries have the same after a write, or it fails on both for one reason. -/
theorem Disk.SameEntries.write {disk other : Disk} (h : disk.SameEntries other) (p : Path)
    (content : List UInt8) :
    (∃ e, disk.write p content = .error e ∧ other.write p content = .error e) ∨
      ∃ next next', disk.write p content = .ok next ∧ other.write p content = .ok next' ∧
        next.SameEntries next' := by
  have htarget : disk.target p = other.target p := by
    rw [target_eq, target_eq, h.step_eq, h.start_eq]
    simp only [h.root _]
  cases hplace : disk.target p with
  | error e =>
    left
    refine ⟨e, ?_, ?_⟩
    · rw [Disk.write, hplace]
      rfl
    · rw [Disk.write, ← htarget, hplace]
      rfl
  | ok place =>
    right
    obtain ⟨front, name, rfl, hwrites⟩ := target_spec hplace
    obtain ⟨front', name', heq, hwrites'⟩ := target_spec (htarget ▸ hplace)
    refine ⟨_, _, write_eq_ok_iff.mpr ⟨_, hplace, rfl⟩,
      write_eq_ok_iff.mpr ⟨_, htarget ▸ hplace, rfl⟩, h.current, ?_⟩
    intro names
    rw [entryAt_put hwrites.dir hwrites.free, heq, entryAt_put hwrites'.dir hwrites'.free,
      h.root names]

/-! ### Disks that extend others -/

/-- A disk has the directories of another and no more, and has something wherever the other has. -/
structure Disk.Extends (next disk : Disk) : Prop where
  current : next.current = disk.current
  dir_iff : ∀ place, next.root.entryAt place = some .dir ↔ disk.root.entryAt place = some .dir
  isSome : ∀ place, (disk.root.entryAt place).isSome → (next.root.entryAt place).isSome

theorem extends_of_write {disk next : Disk} {p : Path} {content : List UInt8}
    (h : disk.write p content = .ok next) : next.Extends disk := by
  obtain ⟨place, -, hnot, hcurrent, hentry⟩ := entryAt_of_write h
  refine ⟨hcurrent, ?_, ?_⟩
  · intro other
    rw [hentry]
    by_cases hother : other = place
    · subst hother
      simp [hnot]
    · rw [if_neg hother]
  · intro other hsome
    rw [hentry]
    split
    · rfl
    · exact hsome

namespace Disk.Extends

variable {next disk : Disk} (h : next.Extends disk)

include h

theorem start_eq (p : Path) : next.start p = disk.start p := by
  rw [Disk.start, Disk.start, h.current]

theorem step {place other : List String} {piece : String}
    (hstep : disk.step place piece = .ok other) : next.step place piece = .ok other := by
  obtain ⟨hdir, hway⟩ := step_eq_ok_iff.mp hstep
  refine step_eq_ok_iff.mpr ⟨(h.dir_iff place).mpr hdir, ?_⟩
  exact hway.imp_right (.imp_right fun ⟨hidle, hup, hsize, hsome, heq⟩ =>
    ⟨hidle, hup, hsize, h.isSome _ hsome, heq⟩)

theorem foldlM_step {place other : List String} {pieces : List String}
    (hsteps : pieces.foldlM disk.step place = .ok other) :
    pieces.foldlM next.step place = .ok other := by
  induction pieces generalizing place with
  | nil => exact hsteps
  | cons piece rest ih =>
    rw [List.foldlM_cons] at hsteps ⊢
    obtain ⟨between, hstep, hrest⟩ := bind_eq_ok_iff.mp hsteps
    exact bind_eq_ok_iff.mpr ⟨between, h.step hstep, ih hrest⟩

/-- A path leads where it led before. -/
theorem locate {p : Path} {place : List String} (hplace : disk.locate p = .ok place) :
    next.locate p = .ok place := by
  obtain ⟨hcheck, hwalk⟩ := locate_eq_ok_iff.mp hplace
  refine locate_eq_ok_iff.mpr ⟨hcheck, ?_⟩
  rw [Disk.walk, h.start_eq]
  exact h.foldlM_step hwalk

/-- A step that leads to a directory is one on the disk before. -/
theorem step_of_dir {place other : List String} {piece : String}
    (hstep : next.step place piece = .ok other) (hother : disk.root.entryAt other = some .dir) :
    disk.step place piece = .ok other := by
  obtain ⟨hdir, hway⟩ := step_eq_ok_iff.mp hstep
  refine step_eq_ok_iff.mpr ⟨(h.dir_iff place).mp hdir, ?_⟩
  refine hway.imp_right (.imp_right fun ⟨hidle, hup, hsize, _, heq⟩ =>
    ⟨hidle, hup, hsize, ?_, heq⟩)
  rw [heq, hother]
  rfl

theorem foldlM_step_of_dir {place other : List String} {pieces : List String}
    (hsteps : pieces.foldlM next.step place = .ok other)
    (hother : disk.root.entryAt other = some .dir) :
    pieces.foldlM disk.step place = .ok other := by
  induction pieces generalizing place with
  | nil => exact hsteps
  | cons piece rest ih =>
    rw [List.foldlM_cons] at hsteps ⊢
    obtain ⟨between, hstep, hrest⟩ := bind_eq_ok_iff.mp hsteps
    -- a walk goes on from directories only
    have hbetween : disk.root.entryAt between = some .dir := by
      cases rest with
      | nil =>
        cases hrest
        exact hother
      | cons second more =>
        rw [List.foldlM_cons] at hrest
        obtain ⟨_, hsecond, -⟩ := bind_eq_ok_iff.mp hrest
        exact (h.dir_iff between).mp (dir_of_step hsecond)
    exact bind_eq_ok_iff.mpr ⟨between, h.step_of_dir hstep hbetween, ih hrest⟩

/-- A path leads to a directory if and only if it led to one before. -/
theorem locate_dir_iff {p : Path} {place : List String} :
    next.locate p = .ok place ∧ next.root.entryAt place = some .dir ↔
      disk.locate p = .ok place ∧ disk.root.entryAt place = some .dir := by
  constructor
  · rintro ⟨hplace, hdir⟩
    obtain ⟨hcheck, hwalk⟩ := locate_eq_ok_iff.mp hplace
    have hdir' := (h.dir_iff place).mp hdir
    rw [Disk.walk, h.start_eq] at hwalk
    exact ⟨locate_eq_ok_iff.mpr ⟨hcheck, h.foldlM_step_of_dir hwalk hdir'⟩, hdir'⟩
  · rintro ⟨hplace, hdir⟩
    exact ⟨h.locate hplace, (h.dir_iff place).mpr hdir⟩

end Disk.Extends

/-! ### Reading what was written -/

/-- The path of a file that was written leads to the file, and it was written where the path leads
to. -/
theorem read_of_write {disk next : Disk} {p : Path} {content : List UInt8}
    (h : disk.write p content = .ok next) :
    next.read p = .ok content ∧ ∃ place, next.locate p = .ok place ∧
      ∀ other, next.root.entryAt other ≠ disk.root.entryAt other → other = place := by
  have hextends := extends_of_write h
  obtain ⟨place, hplace, -, -, hentry⟩ := entryAt_of_write h
  obtain ⟨front, name, rfl, hwrites⟩ := target_spec hplace
  obtain ⟨before, hpieces, hfront⟩ := hwrites.pieces
  have hfile : next.root.entryAt (front ++ [name]) = some (.file content) := by
    rw [hentry, if_pos rfl]
  have hlocate : next.locate p = .ok (front ++ [name]) := by
    have hstep : next.step front name = .ok (front ++ [name]) := by
      refine step_eq_ok_iff.mpr ⟨(hextends.dir_iff front).mpr hwrites.dir, .inr (.inr ?_)⟩
      exact ⟨hwrites.plain.1, hwrites.plain.2.1, hwrites.short, Option.isSome_of_eq_some hfile, rfl⟩
    refine locate_eq_ok_iff.mpr ⟨hwrites.check, ?_⟩
    rw [Disk.walk, hextends.start_eq, hpieces, List.foldlM_append, hextends.foldlM_step hfront]
    change [name].foldlM next.step front = _
    rw [List.foldlM_cons]
    exact bind_eq_ok_iff.mpr ⟨_, hstep, rfl⟩
  refine ⟨read_eq_ok_iff.mpr ⟨_, hlocate, hfile⟩, _, hlocate, ?_⟩
  intro other hchanged
  by_contra hne
  exact hchanged (by rw [hentry, if_neg hne])

end HackVm
