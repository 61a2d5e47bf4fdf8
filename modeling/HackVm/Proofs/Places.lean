/-
Places on disks.

What a path leads to depends only on where the disk has files and directories, and on what is in
the files (`Node.entryAt`): each step of a walk asks for the entry at the place that it has come to
and at the next one (`step_eq`). So disks with the same entries differ for no path, in whatever order
their directories list them (`Disk.SameEntries`).

A walk along a path with names at its end goes on from where the path leads (`walk_foldl_join`), and
plain names lead to the place with these names behind (`eq_of_foldlM_step`). So what is read from a
path that has the names on the way to a file at its end is that file (`get?_of_read`).
-/
import HackVm.Disk
import HackVm.Proofs.Paths

namespace HackVm

/-! ### Entries -/

/-- What is at a place: a file with its bytes, or a directory. -/
inductive Entry where
  | file (content : List UInt8)
  | dir
  deriving DecidableEq

/-- A node without what is below it. -/
def Node.entry : Node → Entry
  | .file content => .file content
  | .dir _ => .dir

/-- What names lead to from a node. -/
def Node.entryAt (node : Node) (names : List String) : Option Entry :=
  (node.get? names).map Node.entry

theorem get?_cons (entries : List (String × Node)) (name : String) (rest : List String) :
    (Node.dir entries).get? (name :: rest) =
      (entries.lookup name).bind fun node => node.get? rest := by
  rw [Node.get?]
  cases entries.lookup name <;> rfl

theorem get?_append (node : Node) (front behind : List String) :
    node.get? (front ++ behind) = (node.get? front).bind fun found => found.get? behind := by
  induction front generalizing node with
  | nil => cases node <;> rfl
  | cons name rest ih =>
    cases node with
    | file content => rfl
    | dir entries =>
      rw [List.cons_append, get?_cons, get?_cons]
      cases entries.lookup name with
      | none => rfl
      | some next => exact ih next

@[simp] theorem entryAt_nil (node : Node) : node.entryAt [] = some node.entry := by
  cases node <;> rfl

@[simp] theorem entryAt_file_cons (content : List UInt8) (name : String) (rest : List String) :
    (Node.file content).entryAt (name :: rest) = none := rfl

theorem entryAt_dir_cons (entries : List (String × Node)) (name : String) (rest : List String) :
    (Node.dir entries).entryAt (name :: rest) =
      (entries.lookup name).bind fun node => node.entryAt rest := by
  rw [Node.entryAt, get?_cons]
  cases entries.lookup name <;> rfl

theorem entryAt_eq_dir_iff {node : Node} {names : List String} :
    node.entryAt names = some .dir ↔ ∃ entries, node.get? names = some (.dir entries) := by
  rw [Node.entryAt, Option.map_eq_some_iff]
  constructor
  · rintro ⟨found, hfound, hentry⟩
    cases found with
    | file content => cases hentry
    | dir entries => exact ⟨entries, hfound⟩
  · rintro ⟨entries, h⟩
    exact ⟨_, h, rfl⟩

theorem entryAt_eq_file_iff {node : Node} {names : List String} {content : List UInt8} :
    node.entryAt names = some (.file content) ↔ node.get? names = some (.file content) := by
  rw [Node.entryAt, Option.map_eq_some_iff]
  constructor
  · rintro ⟨found, hfound, hentry⟩
    cases found with
    | file other => cases hentry; exact hfound
    | dir entries => cases hentry
  · intro h
    exact ⟨_, h, rfl⟩

/-- What is below a directory on a disk. -/
theorem entryAt_of_get? {node dir : Node} {place : List String} (h : node.get? place = some dir)
    (names : List String) : dir.entryAt names = node.entryAt (place ++ names) := by
  rw [Node.entryAt, Node.entryAt, get?_append, h, Option.bind_some]

/-! ### Steps -/

theorem bind_eq_ok_iff {ε α β : Type} {r : Except ε α} {f : α → Except ε β} {b : β} :
    r.bind f = .ok b ↔ ∃ a, r = .ok a ∧ f a = .ok b := by
  cases r with
  | error e => simp [Except.bind]
  | ok a => simp [Except.bind]

theorem ite_error_eq_ok_iff {ε α : Type} {c : Prop} [Decidable c] {e : ε} {r : Except ε α} {a : α} :
    (if c then .error e else r) = .ok a ↔ ¬ c ∧ r = .ok a := by
  by_cases h : c <;> simp [h]

theorem step_eq (disk : Disk) (place : List String) (piece : String) :
    disk.step place piece =
      match disk.root.entryAt place with
      | none => .error .notFound
      | some (.file _) => .error .notDirectory
      | some .dir =>
        if isIdle piece then .ok place
        else if piece = ".." then .ok place.dropLast
        else if 255 < piece.utf8ByteSize then .error .nameTooLong
        else if (disk.root.entryAt (place ++ [piece])).isSome then .ok (place ++ [piece])
        else .error .notFound := by
  simp only [Disk.step, Node.entryAt, Option.isSome_map]
  cases disk.root.get? place with
  | none => rfl
  | some node => cases node <;> rfl

/-- A step leads from a directory to itself, to the one above, or to what is in it. -/
theorem step_eq_ok_iff {disk : Disk} {place next : List String} {piece : String} :
    disk.step place piece = .ok next ↔ disk.root.entryAt place = some .dir ∧
      (isIdle piece ∧ place = next ∨ piece = ".." ∧ place.dropLast = next ∨
        isIdle piece = false ∧ piece ≠ ".." ∧ piece.utf8ByteSize ≤ 255 ∧
          (disk.root.entryAt (place ++ [piece])).isSome ∧ place ++ [piece] = next) := by
  rw [step_eq]
  cases hplace : disk.root.entryAt place with
  | none => simp
  | some entry =>
    cases entry with
    | file content => simp
    | dir =>
      by_cases hidle : isIdle piece
      · have hup : piece ≠ ".." := by
          rintro rfl
          cases hidle
        simp [hidle, hup]
      · by_cases hup : piece = ".."
        · subst hup
          simp [hidle]
        · by_cases hsize : 255 < piece.utf8ByteSize
          · simp [hidle, hup, hsize]
          · by_cases hnext : (disk.root.entryAt (place ++ [piece])).isSome
            · simp [hidle, hup, hsize, hnext, Nat.le_of_not_lt hsize]
            · simp [hidle, hup, hsize, hnext]

theorem dir_of_step {disk : Disk} {place next : List String} {piece : String}
    (h : disk.step place piece = .ok next) : disk.root.entryAt place = some .dir :=
  (step_eq_ok_iff.mp h).1

theorem eq_of_step {disk : Disk} {place next : List String} {name : String} (hname : IsPlain name)
    (h : disk.step place name = .ok next) : next = place ++ [name] := by
  rcases (step_eq_ok_iff.mp h).2 with ⟨hidle, -⟩ | ⟨hup, -⟩ | ⟨-, -, -, -, hnext⟩
  · exact absurd hidle (by simp [hname.1])
  · exact absurd hup hname.2.1
  · exact hnext.symm

/-- A piece that means nothing needs a directory and stays there. -/
theorem step_idle_bind (disk : Disk) (place : List String) {idle : String} (hidle : isIdle idle)
    (piece : String) :
    ((disk.step place idle).bind fun next => disk.step next piece) = disk.step place piece := by
  cases hplace : disk.root.entryAt place with
  | none => simp [step_eq, hplace, Except.bind]
  | some entry =>
    cases entry with
    | file content => simp [step_eq, hplace, Except.bind]
    | dir =>
      have hstay : disk.step place idle = .ok place := by
        simp [step_eq, hplace, hidle]
      rw [hstay, Except.bind]

theorem eq_of_foldlM_step {disk : Disk} {place next : List String} {names : List String}
    (hnames : ∀ name ∈ names, IsPlain name) (h : names.foldlM disk.step place = .ok next) :
    next = place ++ names := by
  induction names generalizing place with
  | nil =>
    cases h
    exact (List.append_nil _).symm
  | cons name rest ih =>
    rw [List.foldlM_cons] at h
    obtain ⟨between, hstep, hrest⟩ := bind_eq_ok_iff.mp h
    have hbetween := eq_of_step (hnames name List.mem_cons_self) hstep
    rw [ih (fun other hother => hnames other (List.mem_cons_of_mem name hother)) hrest, hbetween,
      List.append_assoc, List.singleton_append]

/-! ### Walks -/

/-- Where the pieces of a path lead, of whatever length it is. -/
def Disk.walk (disk : Disk) (p : Path) : Except OsError (List String) :=
  p.pieces.foldlM disk.step (disk.start p)

theorem locate_eq (disk : Disk) (p : Path) :
    disk.locate p = p.check.bind fun _ => disk.walk p := rfl

theorem locate_eq_ok_iff {disk : Disk} {p : Path} {place : List String} :
    disk.locate p = .ok place ↔ p.check = .ok () ∧ disk.walk p = .ok place := by
  rw [locate_eq, bind_eq_ok_iff]
  exact ⟨fun ⟨_, hcheck, hwalk⟩ => ⟨hcheck, hwalk⟩, fun ⟨hcheck, hwalk⟩ => ⟨(), hcheck, hwalk⟩⟩

theorem check_eq_ok_iff {p : Path} :
    p.check = .ok () ↔
      '\x00' ∉ p.text.toList ∧ p.text ≠ "" ∧ p.text.utf8ByteSize < pathLimit := by
  rw [Path.check, ite_error_eq_ok_iff, ite_error_eq_ok_iff, ite_error_eq_ok_iff]
  simp

theorem isWalkable_iff {p : Path} : p.isWalkable ↔ p.check = .ok () := by
  rw [Path.isWalkable]
  cases p.check with
  | error e => simp [Except.isOk, Except.toBool]
  | ok u => simp [Except.isOk, Except.toBool]

theorem text_join_ne {p : Path} (h : p.text ≠ "") (name : String) : (p.join name).text ≠ "" := by
  intro hempty
  rw [Path.join] at hempty
  split at hempty
  · exact h (String.append_eq_empty_iff.mp hempty).1
  · exact h (String.append_eq_empty_iff.mp (String.append_eq_empty_iff.mp hempty).1).1

theorem start_join (disk : Disk) {p : Path} (h : p.text ≠ "") (name : String) :
    disk.start (p.join name) = disk.start p := by
  have hchars : p.text.toList ≠ [] := fun hnil => h (String.toList_inj.mp hnil)
  have hhead : (p.join name).text.toList.head? = p.text.toList.head? := by
    rw [Path.join]
    split
    · rw [String.toList_append, List.head?_append_of_ne_nil _ hchars]
    · rw [String.toList_append, String.toList_append, List.append_assoc,
        List.head?_append_of_ne_nil _ hchars]
  rw [Disk.start, Disk.start, hhead]

/-- The pieces of a path with a name at its end. -/
theorem pieces_join {p : Path} (h : p.text ≠ "") {name : String} (hname : '/' ∉ name.toList) :
    (p.join name).pieces = p.pieces ++ [name] ∨
      ∃ front, p.pieces = front ++ [""] ∧ (p.join name).pieces = front ++ [name] := by
  rw [Path.join]
  split
  · rename_i hend
    obtain ⟨front, hfront⟩ : ∃ front, p.text.toList = front ++ ['/'] := by
      simpa [h, List.getLast?_eq_some_iff] using hend
    have htext : p.text = String.ofList front ++ "/" := by
      rw [← String.toList_inj, hfront]
      simp
    have hpieces : p.pieces = (Path.mk (String.ofList front)).pieces ++ [""] := by
      have hslash := pieces_append_slash (String.ofList front) ""
      rw [String.append_empty, ← htext, pieces_of_not_mem (by decide : '/' ∉ "".toList)] at hslash
      exact hslash
    right
    exact ⟨_, hpieces, by rw [htext, pieces_append_slash, pieces_of_not_mem hname]⟩
  · left
    rw [pieces_append_slash, pieces_of_not_mem hname]

theorem walk_join (disk : Disk) {p : Path} (h : p.text ≠ "") {name : String}
    (hname : '/' ∉ name.toList) :
    disk.walk (p.join name) = (disk.walk p).bind fun place => disk.step place name := by
  rw [Disk.walk, Disk.walk, start_join disk h]
  rcases pieces_join h hname with hpieces | ⟨front, hfront, hpieces⟩
  · rw [hpieces, List.foldlM_append]
    simp only [List.foldlM_cons, List.foldlM_nil, bind_pure]
    rfl
  · rw [hfront, hpieces, List.foldlM_append, List.foldlM_append]
    simp only [List.foldlM_cons, List.foldlM_nil, bind_pure]
    cases front.foldlM disk.step (disk.start p) with
    | error e => rfl
    | ok place => exact (step_idle_bind disk place rfl name).symm

theorem walk_foldl_join (disk : Disk) {p : Path} (h : p.text ≠ "") {names : List String}
    (hnames : ∀ name ∈ names, '/' ∉ name.toList) :
    disk.walk (names.foldl Path.join p) =
      (disk.walk p).bind fun place => names.foldlM disk.step place := by
  induction names generalizing p with
  | nil =>
    rw [List.foldl_nil]
    cases disk.walk p <;> rfl
  | cons name rest ih =>
    rw [List.foldl_cons, ih (text_join_ne h name) fun other hother =>
      hnames other (List.mem_cons_of_mem name hother),
      walk_join disk h (hnames name List.mem_cons_self)]
    cases disk.walk p <;> rfl

/-! ### What paths lead to -/

theorem dir?_eq_some_iff {disk : Disk} {p : Path} {dir : Node} :
    disk.dir? p = some dir ↔ ∃ place entries, disk.locate p = .ok place ∧
      disk.root.get? place = some (.dir entries) ∧ dir = .dir entries := by
  unfold Disk.dir? Disk.find
  cases disk.locate p with
  | error e => simp [bind, Except.bind]
  | ok place =>
    simp only [bind, Except.bind, Except.ok.injEq]
    cases hget : disk.root.get? place with
    | none => simp [hget, throw, throwThe, MonadExceptOf.throw]
    | some node =>
      cases node with
      | file content => simp [hget, pure, Except.pure]
      | dir entries =>
        simp only [pure, Except.pure, Option.some.injEq]
        constructor
        · rintro rfl
          exact ⟨place, entries, rfl, hget, rfl⟩
        · rintro ⟨place', entries', rfl, hget', rfl⟩
          rw [hget] at hget'
          exact Option.some.inj hget'

theorem isSome_dir?_iff {disk : Disk} {p : Path} :
    (disk.dir? p).isSome ↔
      ∃ place, disk.locate p = .ok place ∧ disk.root.entryAt place = some .dir := by
  simp only [Option.isSome_iff_exists, dir?_eq_some_iff, entryAt_eq_dir_iff]
  constructor
  · rintro ⟨_, place, entries, hplace, hget, -⟩
    exact ⟨place, hplace, entries, hget⟩
  · rintro ⟨place, hplace, entries, hget⟩
    exact ⟨_, place, entries, hplace, hget, rfl⟩

theorem read_eq (disk : Disk) (p : Path) :
    disk.read p = (disk.locate p).bind fun place =>
      match disk.root.entryAt place with
      | none => .error .notFound
      | some (.file content) => .ok content
      | some .dir => .error .isDirectory := by
  unfold Disk.read Disk.find
  cases disk.locate p with
  | error e => rfl
  | ok place =>
    simp only [bind, Except.bind, Node.entryAt]
    cases disk.root.get? place with
    | none => rfl
    | some node => cases node <;> rfl

theorem read_eq_ok_iff {disk : Disk} {p : Path} {content : List UInt8} :
    disk.read p = .ok content ↔
      ∃ place, disk.locate p = .ok place ∧ disk.root.entryAt place = some (.file content) := by
  rw [read_eq, bind_eq_ok_iff]
  refine exists_congr fun place => and_congr_right fun _ => ?_
  cases disk.root.entryAt place with
  | none => simp
  | some entry => cases entry <;> simp

/-- What is read from a path that has names behind those of a directory is the file that the names
lead to from the directory. -/
theorem get?_of_read {disk : Disk} {input : Path} {dir : Node} (hdir : disk.dir? input = some dir)
    {names : List String} (hnames : ∀ name ∈ names, IsPlain name) {content : List UInt8}
    (h : disk.read (names.foldl Path.join input) = .ok content) :
    dir.get? names = some (.file content) := by
  obtain ⟨place, entries, hplace, hget, rfl⟩ := dir?_eq_some_iff.mp hdir
  obtain ⟨hcheck, hwalk⟩ := locate_eq_ok_iff.mp hplace
  obtain ⟨found, hfound, hfile⟩ := read_eq_ok_iff.mp h
  have hsteps := (locate_eq_ok_iff.mp hfound).2
  rw [walk_foldl_join disk (check_eq_ok_iff.mp hcheck).2.1 fun name hname =>
    (hnames name hname).2.2, hwalk] at hsteps
  rw [eq_of_foldlM_step hnames hsteps] at hfile
  rw [← entryAt_eq_file_iff, entryAt_of_get? hget, hfile]

/-! ### Disks with the same entries -/

/-- Two nodes have the same below them: at every place the same entry. -/
def Node.SameEntries (node other : Node) : Prop :=
  ∀ names, node.entryAt names = other.entryAt names

/-- Two disks have the same files and directories, and one current directory. -/
structure Disk.SameEntries (disk other : Disk) : Prop where
  current : disk.current = other.current
  root : disk.root.SameEntries other.root

theorem lookup_eq_of_perm {entries others : List (String × Node)} (h : entries.Perm others)
    (hnodup : (entries.map Prod.fst).Nodup) (name : String) :
    entries.lookup name = others.lookup name := by
  induction h with
  | nil => rfl
  | cons entry _ ih =>
    obtain ⟨other, node⟩ := entry
    rw [List.lookup_cons, List.lookup_cons, ih (List.nodup_cons.mp hnodup).2]
  | swap first second rest =>
    obtain ⟨one, node⟩ := first
    obtain ⟨two, node'⟩ := second
    have hne : one ≠ two := by
      rintro rfl
      simp at hnodup
    simp only [List.lookup_cons]
    by_cases hone : name = one
    · subst hone
      rw [beq_self_eq_true, beq_eq_false_iff_ne.mpr hne]
    · rw [beq_eq_false_iff_ne.mpr hone]
  | trans hfirst _ ih ih' =>
    rw [ih hnodup, ih' ((hfirst.map Prod.fst).nodup_iff.mp hnodup)]

/-- A directory has the same below it in whatever order it lists its entries, if these have names of
their own. -/
theorem sameEntries_of_perm {entries others : List (String × Node)} (h : entries.Perm others)
    (hnodup : (entries.map Prod.fst).Nodup) : (Node.dir entries).SameEntries (.dir others) := by
  intro names
  cases names with
  | nil => rfl
  | cons name rest => rw [entryAt_dir_cons, entryAt_dir_cons, lookup_eq_of_perm h hnodup]

/-- A directory has the same below it if each of its entries has. -/
theorem sameEntries_of_forall₂ {entries others : List (String × Node)}
    (h : List.Forall₂ (fun entry other => entry.1 = other.1 ∧ entry.2.SameEntries other.2)
      entries others) : (Node.dir entries).SameEntries (.dir others) := by
  intro names
  cases names with
  | nil => rfl
  | cons name rest =>
    rw [entryAt_dir_cons, entryAt_dir_cons]
    induction h with
    | nil => rfl
    | @cons entry other entries others hentry _ ih =>
      obtain ⟨key, node⟩ := entry
      obtain ⟨key', node'⟩ := other
      obtain ⟨hkey, hnode⟩ := hentry
      cases hkey
      rw [List.lookup_cons, List.lookup_cons]
      cases name == key with
      | true => exact hnode rest
      | false => exact ih

namespace Disk.SameEntries

variable {disk other : Disk} (h : disk.SameEntries other)

include h

theorem step_eq : disk.step = other.step := by
  funext place piece
  rw [HackVm.step_eq, HackVm.step_eq, h.root, h.root]

theorem start_eq (p : Path) : disk.start p = other.start p := by
  rw [Disk.start, Disk.start, h.current]

theorem locate_eq (p : Path) : disk.locate p = other.locate p := by
  rw [HackVm.locate_eq, HackVm.locate_eq, Disk.walk, Disk.walk, h.step_eq, h.start_eq]

theorem read_eq (p : Path) : disk.read p = other.read p := by
  rw [HackVm.read_eq, HackVm.read_eq, h.locate_eq]
  simp only [h.root _]

/-- A path that leads to a directory on one disk leads to one with the same entries on the other. -/
theorem exists_dir? {p : Path} {dir : Node} (hdir : disk.dir? p = some dir) :
    ∃ dir', other.dir? p = some dir' ∧ dir.SameEntries dir' := by
  obtain ⟨place, entries, hplace, hget, rfl⟩ := dir?_eq_some_iff.mp hdir
  have hentry : other.root.entryAt place = some .dir := by
    rw [← h.root]
    exact entryAt_eq_dir_iff.mpr ⟨entries, hget⟩
  obtain ⟨entries', hget'⟩ := entryAt_eq_dir_iff.mp hentry
  refine ⟨.dir entries', dir?_eq_some_iff.mpr ⟨place, entries', ?_, hget', rfl⟩, ?_⟩
  · rw [← h.locate_eq, hplace]
  · intro names
    rw [entryAt_of_get? hget, entryAt_of_get? hget', h.root]

theorem symm : other.SameEntries disk :=
  ⟨h.current.symm, fun names => (h.root names).symm⟩

theorem isSome_dir? (p : Path) : (disk.dir? p).isSome = (other.dir? p).isSome := by
  rw [Bool.eq_iff_iff, isSome_dir?_iff, isSome_dir?_iff, h.locate_eq]
  simp only [h.root _]

end Disk.SameEntries

end HackVm
