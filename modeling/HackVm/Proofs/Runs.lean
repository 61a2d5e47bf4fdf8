/-
Runs of the program.

A run writes the bundle, if one is wanted, and then the assembly, and each of these two steps
writes its file as a whole or changes nothing (`writeBundle_spec`, `writeAssembly_spec`). No
directory comes or goes with the bundle, so the assembly is written to where it would have been
written before (`outputPath_of_extends`). All steps ask for files and directories by their places
only, so the order in which directories list their entries makes no difference to a run
(`run_of_sameEntries`).

What a run is to leave is said of its arguments as they are spelled: which options are among them,
and not what they are read as (`HasBundle`, `HasAssembly`).

* **`runProgram_writes`** — which files a run writes, and what is in them, whether it succeeds or
  fails.
-/
import HackVm.CommandLine.Run
import HackVm.Proofs.Arguments
import HackVm.Proofs.Sizes
import HackVm.Proofs.Writing

namespace HackVm

/-! ### Steps of runs -/

/-- A step of a run, and another behind it unless it fails. -/
def andThen (first : Progress × Option Failure) (next : Progress → Progress × Option Failure) :
    Progress × Option Failure :=
  match first with
  | (p, some e) => (p, some e)
  | (p, none) => next p

section

variable (args : Args) (us : List SourceUnit) (p : Progress)

theorem writeBundle_none (h : args.emitIr = none) : args.writeBundle us p = (p, none) := by
  rw [Args.writeBundle, h]

theorem writeBundle_some {file : Path} (h : args.emitIr = some file) :
    args.writeBundle us p = andThen (p.write file (Bundle.encode us)) fun p =>
      (p.tell [.wroteBundle us.length file.text], none) := by
  rw [Args.writeBundle, h]
  rfl

theorem writeAssembly_error {e : TranslateError}
    (h : (translate args.options us).value = .error e) :
    args.writeAssembly us p =
      (p.tell (translate args.options us).log, some (.untranslatable e)) := by
  rw [Args.writeAssembly]
  simp only [h]

theorem writeAssembly_ok {lines : List String} (h : (translate args.options us).value = .ok lines) :
    args.writeAssembly us p = andThen
      ((p.tell (translate args.options us).log).write (args.outputPath p.disk)
        (assemblyText lines).toUTF8.data.toList) fun q =>
      (q.tell [.translatedProgram us.length lines.length (args.outputPath p.disk).text], none) := by
  rw [Args.writeAssembly]
  simp only [h]
  rfl

variable (disk : Disk)

theorem perform_error {e : Failure} (h : (loadUnits disk args.strict args.input).value = .error e) :
    args.perform disk =
      ({ disk, log := (loadUnits disk args.strict args.input).log }, some e) := by
  rw [Args.perform]
  simp only [h]

theorem perform_dump (h : (loadUnits disk args.strict args.input).value = .ok us)
    (hdump : args.dump) :
    args.perform disk =
      ({ disk
         log := (loadUnits disk args.strict args.input).log
         shown := us.flatMap (SourceUnit.listing !args.noColor) }, none) := by
  rw [Args.perform]
  simp only [h, hdump, if_true]

theorem perform_ok (h : (loadUnits disk args.strict args.input).value = .ok us)
    (hdump : args.dump = false) :
    args.perform disk = andThen
      (args.writeBundle us { disk, log := (loadUnits disk args.strict args.input).log })
      (args.writeAssembly us) := by
  rw [Args.perform]
  simp only [h, hdump]
  rfl

end

/-! ### Runs on disks with the same entries -/

/-- Two runs have done the same so far, on disks with the same entries. -/
structure Progress.Same (p q : Progress) : Prop where
  disk : p.disk.SameEntries q.disk
  written : p.written = q.written
  log : p.log = q.log
  shown : p.shown = q.shown

/-- Two runs leave the same, on disks with the same entries. -/
structure Outcome.Same (o other : Outcome) : Prop where
  status : o.status = other.status
  stdout : o.stdout = other.stdout
  stderr : o.stderr = other.stderr
  disk : o.disk.SameEntries other.disk
  written : o.written = other.written

/-- Two steps of runs end the same, with the same failure if they fail. -/
def SameStep (first second : Progress × Option Failure) : Prop :=
  first.1.Same second.1 ∧ first.2 = second.2

/-- Steps that end the same go on the same. -/
theorem SameStep.andThen {first second : Progress × Option Failure} (h : SameStep first second)
    {f g : Progress → Progress × Option Failure} (hnext : ∀ p q, p.Same q → SameStep (f p) (g q)) :
    SameStep (andThen first f) (andThen second g) := by
  obtain ⟨p, failure⟩ := first
  obtain ⟨q, failure'⟩ := second
  obtain ⟨hsame, hfailure⟩ := h
  cases hfailure
  cases failure with
  | none => exact hnext p q hsame
  | some e => exact ⟨hsame, rfl⟩

namespace Progress.Same

variable {p q : Progress} (h : p.Same q)

include h

theorem tell (log : List Event) : (p.tell log).Same (q.tell log) :=
  ⟨h.disk, h.written, congrArg (· ++ log) h.log, h.shown⟩

theorem write (file : Path) (content : List UInt8) :
    SameStep (p.write file content) (q.write file content) := by
  unfold Progress.write
  rcases h.disk.write file content with ⟨e, he, he'⟩ | ⟨next, next', hnext, hnext', hsame⟩
  · rw [he, he']
    exact ⟨h, rfl⟩
  · rw [hnext, hnext']
    exact ⟨⟨hsame, congrArg (· ++ [file]) h.written, h.log, h.shown⟩, rfl⟩

theorem writeBundle (args : Args) (us : List SourceUnit) :
    SameStep (args.writeBundle us p) (args.writeBundle us q) := by
  cases hbundle : args.emitIr with
  | none =>
    rw [writeBundle_none args us p hbundle, writeBundle_none args us q hbundle]
    exact ⟨h, rfl⟩
  | some file =>
    rw [writeBundle_some args us p hbundle, writeBundle_some args us q hbundle]
    exact (h.write file _).andThen fun p q hsame => ⟨hsame.tell _, rfl⟩

theorem outputPath_eq (args : Args) : args.outputPath p.disk = args.outputPath q.disk := by
  simp only [Args.outputPath, h.disk.isSome_dir?, h.disk.locate_eq]

theorem writeAssembly (args : Args) (us : List SourceUnit) :
    SameStep (args.writeAssembly us p) (args.writeAssembly us q) := by
  have htold := h.tell (translate args.options us).log
  cases hlines : (translate args.options us).value with
  | error e =>
    rw [writeAssembly_error args us p hlines, writeAssembly_error args us q hlines]
    exact ⟨htold, rfl⟩
  | ok lines =>
    rw [writeAssembly_ok args us p hlines, writeAssembly_ok args us q hlines, h.outputPath_eq]
    exact (htold.write _ _).andThen fun p q hsame => ⟨hsame.tell _, rfl⟩

end Progress.Same

section

variable {disk other : Disk} (h : disk.SameEntries other) (htree : disk.root.IsTree)
  (htree' : other.root.IsTree)

include h htree htree'

theorem perform_of_sameEntries (args : Args) :
    SameStep (args.perform disk) (args.perform other) := by
  have hload := loadUnits_of_sameEntries h htree htree' args.strict args.input
  cases hunits : (loadUnits other args.strict args.input).value with
  | error e =>
    rw [perform_error args disk (hload ▸ hunits), perform_error args other hunits, hload]
    exact ⟨⟨h, rfl, rfl, rfl⟩, rfl⟩
  | ok us =>
    cases hdump : args.dump with
    | true =>
      rw [perform_dump args us disk (hload ▸ hunits) hdump, perform_dump args us other hunits hdump,
        hload]
      exact ⟨⟨h, rfl, rfl, rfl⟩, rfl⟩
    | false =>
      rw [perform_ok args us disk (hload ▸ hunits) hdump, perform_ok args us other hunits hdump,
        hload]
      have hstart (log : List Event) : ({ disk, log } : Progress).Same { disk := other, log } :=
        ⟨h, rfl, rfl, rfl⟩
      exact ((hstart _).writeBundle args us).andThen fun p q hsame => hsame.writeAssembly args us

/-- No run of the program depends on the order in which directories list their entries. -/
theorem run_of_sameEntries (args : Args) : (args.run disk).Same (args.run other) := by
  obtain ⟨hsame, hfailure⟩ := perform_of_sameEntries h htree htree' args
  unfold Args.run
  simp only [hfailure, hsame.shown, hsame.log, hsame.written]
  exact ⟨rfl, rfl, rfl, hsame.disk, rfl⟩

end

/-! ### What a run writes -/

theorem outputPath_of_extends {next disk : Disk} (h : next.Extends disk) (args : Args) :
    args.outputPath next = args.outputPath disk := by
  have hdir : (next.dir? args.input).isSome = (disk.dir? args.input).isSome := by
    rw [Bool.eq_iff_iff, isSome_dir?_iff, isSome_dir?_iff]
    exact exists_congr fun place => h.locate_dir_iff
  unfold Args.outputPath
  cases args.output with
  | some path => rfl
  | none =>
    rw [hdir]
    by_cases hsome : (disk.dir? args.input).isSome
    · obtain ⟨place, hplace, -⟩ := isSome_dir?_iff.mp hsome
      simp only [hplace, h.locate hplace]
    · simp only [if_neg hsome]

section

variable (args : Args) (us : List SourceUnit) (p : Progress)

theorem write_spec (file : Path) (content : List UInt8) :
    (∃ e, p.write file content = (p, some e)) ∨
      ∃ q : Progress, p.disk.write file content = .ok q.disk ∧
        p.write file content = (q, none) := by
  unfold Progress.write
  cases hwrite : p.disk.write file content with
  | error e => exact .inl ⟨_, rfl⟩
  | ok next => exact .inr ⟨{ p with disk := next, written := p.written ++ [file] }, rfl, rfl⟩

/-- Writing the bundle fails and changes no file, or is not wanted, or the bundle is written. -/
theorem writeBundle_spec :
    (∃ e, args.writeBundle us p = (p, some e)) ∨
      (∃ q : Progress, q.disk = p.disk ∧ args.writeBundle us p = (q, none)) ∨
      ∃ (file : Path) (q : Progress), args.emitIr = some file ∧
        p.disk.write file (Bundle.encode us) = .ok q.disk ∧ args.writeBundle us p = (q, none) := by
  cases hbundle : args.emitIr with
  | none => exact .inr (.inl ⟨p, rfl, writeBundle_none args us p hbundle⟩)
  | some file =>
    rw [writeBundle_some args us p hbundle]
    rcases write_spec p file (Bundle.encode us) with ⟨e, he⟩ | ⟨q, hdisk, hq⟩
    · rw [he]
      exact .inl ⟨e, rfl⟩
    · rw [hq]
      exact .inr (.inr ⟨file, q.tell _, rfl, hdisk, rfl⟩)

/-- Writing the assembly fails and changes no file, or the assembly is written. -/
theorem writeAssembly_spec :
    (∃ (q : Progress) (e : Failure), q.disk = p.disk ∧ args.writeAssembly us p = (q, some e)) ∨
      ∃ (lines : List String) (q : Progress), (translate args.options us).value = .ok lines ∧
        p.disk.write (args.outputPath p.disk) (assemblyText lines).toUTF8.data.toList =
          .ok q.disk ∧ args.writeAssembly us p = (q, none) := by
  cases hlines : (translate args.options us).value with
  | error e => exact .inl ⟨p.tell _, _, rfl, writeAssembly_error args us p hlines⟩
  | ok lines =>
    rw [writeAssembly_ok args us p hlines]
    rcases write_spec (p.tell (translate args.options us).log) (args.outputPath p.disk)
      (assemblyText lines).toUTF8.data.toList with ⟨e, he⟩ | ⟨q, hdisk, hq⟩
    · rw [he]
      exact .inl ⟨p.tell _, e, rfl, rfl⟩
    · rw [hq]
      exact .inr ⟨lines, q.tell _, rfl, hdisk, rfl⟩

end

/-- Where two disks differ. -/
def Disk.ChangedAt (next disk : Disk) (place : List String) : Prop :=
  next.root.entryAt place ≠ disk.root.entryAt place

/-- Whether a disk has a bundle of units where arguments want it and is otherwise as another. -/
def HasBundle (arguments : List String) (us : List SourceUnit) (next disk : Disk) : Prop :=
  ∃ bundle : Path, IsGiven "emit-ir" bundle.text (optionsOf arguments) ∧
    next.read bundle = .ok (Bundle.encode us) ∧
    ∀ place, next.ChangedAt disk place → next.locate bundle = .ok place

/-- Whether a disk has at a path the assembly of units that arguments ask for, a line feed between
two lines and one at the end, and is otherwise as another, but for the bundle. -/
def HasAssembly (arguments : List String) (output : Path) (us : List SourceUnit)
    (next disk : Disk) : Prop :=
  ∃ (options : Options) (lines : List String), options.AreAskedBy arguments ∧
    (translate options us).value = .ok lines ∧
    next.read output = .ok ("\n".intercalate lines ++ "\n").toUTF8.data.toList ∧
    ∀ place, next.ChangedAt disk place → next.locate output = .ok place ∨
      ∃ bundle : Path, IsGiven "emit-ir" bundle.text (optionsOf arguments) ∧
        next.locate bundle = .ok place

section

variable {arguments : List String} {args : Args} (hargs : Args.parse arguments = .ok args)

include hargs

theorem hasBundle_of_write {us : List SourceUnit} {next disk : Disk} {file : Path}
    (hfile : args.emitIr = some file) (h : disk.write file (Bundle.encode us) = .ok next) :
    HasBundle arguments us next disk := by
  obtain ⟨hread, place, hplace, hchanged⟩ := read_of_write h
  exact ⟨file, (emitIr_iff_of_parse hargs file).mp hfile, hread,
    fun other hother => hchanged other hother ▸ hplace⟩

/-- The assembly is written to where it would have been written before the bundle was. -/
theorem hasAssembly_of_write {us : List SourceUnit} {last next disk : Disk} {lines : List String}
    (hlines : (translate args.options us).value = .ok lines)
    (hnext : next = disk ∨ ∃ file, args.emitIr = some file ∧
      disk.write file (Bundle.encode us) = .ok next)
    (h : next.write (args.outputPath next) (assemblyText lines).toUTF8.data.toList = .ok last) :
    HasAssembly arguments (args.outputPath disk) us last disk := by
  have hoptions := areAskedBy_of_parse hargs
  have hlast := extends_of_write h
  obtain ⟨hread, place, hplace, hchanged⟩ := read_of_write h
  rcases hnext with rfl | ⟨file, hfile, hwrite⟩
  · exact ⟨args.options, lines, hoptions, hlines, hread,
      fun other hother => .inl (hchanged other hother ▸ hplace)⟩
  · have houtput := outputPath_of_extends (extends_of_write hwrite) args
    obtain ⟨-, place', hplace', hchanged'⟩ := read_of_write hwrite
    rw [houtput] at hread hplace
    refine ⟨args.options, lines, hoptions, hlines, hread, ?_⟩
    intro other hother
    by_cases hsecond : last.root.entryAt other = next.root.entryAt other
    · have hfirst : next.root.entryAt other ≠ disk.root.entryAt other := hsecond ▸ hother
      exact .inr ⟨file, (emitIr_iff_of_parse hargs file).mp hfile,
        hchanged' other hfirst ▸ hlast.locate hplace'⟩
    · exact .inl (hchanged other hsecond ▸ hplace)

/-- The bundle is where the arguments were read to want it. -/
theorem hasBundle_spec {us : List SourceUnit} {next disk : Disk} {file : Path}
    (hfile : args.emitIr = some file) (h : HasBundle arguments us next disk) :
    next.read file = .ok (Bundle.encode us) ∧
      ∀ place, next.ChangedAt disk place → next.locate file = .ok place := by
  obtain ⟨bundle, hbundle, hread, hchanged⟩ := h
  obtain rfl : file = bundle :=
    Option.some.inj (hfile.symm.trans ((emitIr_iff_of_parse hargs bundle).mpr hbundle))
  exact ⟨hread, hchanged⟩

/-- The assembly is what is translated with the settings that the arguments were read to want. -/
theorem hasAssembly_spec {output : Path} {us : List SourceUnit} {next disk : Disk}
    {lines : List String} (hlines : (translate args.options us).value = .ok lines)
    (h : HasAssembly arguments output us next disk) :
    next.read output = .ok ("\n".intercalate lines ++ "\n").toUTF8.data.toList ∧
      ∀ place, next.ChangedAt disk place → next.locate output = .ok place ∨
        ∃ bundle, args.emitIr = some bundle ∧ next.locate bundle = .ok place := by
  obtain ⟨options, lines', hoptions, hlines', hread, hchanged⟩ := h
  obtain rfl : args.options = options := (areAskedBy_of_parse hargs).unique hoptions
  obtain rfl : lines = lines' := Except.ok.inj (hlines.symm.trans hlines')
  refine ⟨hread, fun place hplace => (hchanged place hplace).imp_right ?_⟩
  rintro ⟨bundle, hbundle, hsame⟩
  exact ⟨bundle, (emitIr_iff_of_parse hargs bundle).mpr hbundle, hsame⟩

/-- A run that loads units and shows no listing leaves the assembly. If it fails then it leaves the
bundle, or everything as it was. -/
theorem perform_spec {disk : Disk} {us : List SourceUnit}
    (hload : (loadUnits disk args.strict args.input).value = .ok us) (hdump : args.dump = false) :
    (∃ (q : Progress) (e : Failure), args.perform disk = (q, some e) ∧
        (q.disk = disk ∨ HasBundle arguments us q.disk disk)) ∨
      ∃ q : Progress, args.perform disk = (q, none) ∧
        HasAssembly arguments (args.outputPath disk) us q.disk disk := by
  rw [perform_ok args us disk hload hdump]
  generalize hp : ({ disk, log := (loadUnits disk args.strict args.input).log } : Progress) = p
  obtain rfl : p.disk = disk := by rw [← hp]
  rcases writeBundle_spec args us p with ⟨e, he⟩ | hwritten
  · rw [he]
    exact .inl ⟨p, e, rfl, .inl rfl⟩
  · -- the bundle is written if it is wanted
    obtain ⟨q, hq, hnext⟩ : ∃ q : Progress, args.writeBundle us p = (q, none) ∧
        (q.disk = p.disk ∨ ∃ file, args.emitIr = some file ∧
          p.disk.write file (Bundle.encode us) = .ok q.disk) := by
      rcases hwritten with ⟨q, hsame, hq⟩ | ⟨file, q, hfile, hwrite, hq⟩
      · exact ⟨q, hq, .inl hsame⟩
      · exact ⟨q, hq, .inr ⟨file, hfile, hwrite⟩⟩
    rw [hq]
    change (∃ r e, args.writeAssembly us q = (r, some e) ∧ _) ∨
      ∃ r, args.writeAssembly us q = (r, none) ∧ _
    rcases writeAssembly_spec args us q with ⟨last, e, hsame, hlast⟩ |
      ⟨lines, last, hlines, hwrite, hlast⟩
    · refine .inl ⟨last, e, hlast, ?_⟩
      rw [hsame]
      exact hnext.imp_right fun ⟨file, hfile, hwrite⟩ => hasBundle_of_write hargs hfile hwrite
    · exact .inr ⟨last, hlast, hasAssembly_of_write hargs hlines hnext hwrite⟩

end

theorem run_eq (args : Args) (disk : Disk) :
    (args.run disk).disk = (args.perform disk).1.disk ∧
      (args.run disk).status = if (args.perform disk).2.isSome then 1 else 0 :=
  ⟨rfl, rfl⟩

/-- What a run leaves on a disk. If only a listing is asked for that is the disk as it was. If all
goes well, the assembly of the units that were loaded is where it is wanted, and nothing else is
changed but where the bundle is wanted. If anything fails, nothing is changed, or only the bundle
is, and it is read as the units that were loaded. -/
theorem runProgram_writes {disk : Disk} {arguments : List String} {args : Args}
    (hargs : Args.parse arguments = .ok args) (hsize : disk.root.size < 2 ^ 64) :
    let outcome := runProgram disk arguments
    let loaded := (loadUnits disk ("--strict" ∈ optionsOf arguments) args.input).value
    (outcome.status = 0 ∨ outcome.status = 1) ∧
      ("--dump" ∈ optionsOf arguments → outcome.disk = disk) ∧
      (outcome.status = 0 → "--dump" ∉ optionsOf arguments →
        ∃ us, loaded = .ok us ∧
          HasAssembly arguments (args.outputPath disk) us outcome.disk disk) ∧
      (outcome.status = 1 → outcome.disk = disk ∨
        ∃ us, loaded = .ok us ∧ HasBundle arguments us outcome.disk disk ∧
          Bundle.decode (Bundle.encode us) = .ok us) := by
  intro outcome loaded
  have houtcome : outcome = args.run disk := by
    simp only [outcome, runProgram, hargs]
  have hloaded : loaded = (loadUnits disk args.strict args.input).value := by
    have hstrict := (areAskedBy_of_parse hargs).strict
    simp only [loaded, ← hstrict, Bool.decide_eq_true]
    rfl
  rw [houtcome, (run_eq args disk).1, (run_eq args disk).2, ← dump_iff_of_parse hargs]
  cases hload : loaded with
  | error e =>
    rw [perform_error args disk (hloaded ▸ hload)]
    simp
  | ok us =>
    rw [hloaded] at hload
    have hfits := fits_of_loadUnits hsize hload
    cases hdump : args.dump with
    | true =>
      rw [perform_dump args us disk hload hdump]
      simp
    | false =>
      rcases perform_spec hargs hload hdump with ⟨q, e, hq, hleft⟩ | ⟨q, hq, hleft⟩
      · rw [hq]
        refine ⟨.inr rfl, nofun, nofun, fun _ => ?_⟩
        exact hleft.imp_right fun hbundle => ⟨us, rfl, hbundle, decode_encode hfits⟩
      · rw [hq]
        exact ⟨.inl rfl, nofun, fun _ _ => ⟨us, rfl, hleft⟩, nofun⟩

/-- A disk with a source file in the current directory, whose text is `goto L`. -/
def smallDisk : Disk :=
  ⟨.dir [("a.vm", .file [103, 111, 116, 111, 32, 76])], []⟩

/-- A run that writes the bundle to where the assembly is written then, the lines `@a$L` and
`0;JMP`, one that writes the bundle and fails to write the assembly as there is no directory for it,
and one that only shows a listing. -/
theorem runProgram_writes_smallDisk :
    let outcome := runProgram smallDisk
      ["--no-bootstrap", "--no-annotate", "--emit-ir=a.asm", "a.vm"]
    let outcome' := runProgram smallDisk ["a.vm", "--emit-ir", "a.vmir", "-ob/a.asm"]
    let outcome'' := runProgram smallDisk ["--dump", "--emit-ir=a.vmir", "--", "a.vm"]
    (outcome.status = 0 ∧
        outcome.disk.read ⟨"a.asm"⟩ = .ok [64, 97, 36, 76, 10, 48, 59, 74, 77, 80, 10] ∧
        ∀ place, outcome.disk.ChangedAt smallDisk place → place = ["a.asm"]) ∧
      (outcome'.status = 1 ∧ outcome'.disk.read ⟨"a.vmir"⟩ = .ok [1, 1, 97, 1, 1, 13, 1, 76] ∧
        Bundle.decode [1, 1, 97, 1, 1, 13, 1, 76] = .ok [⟨"a", [⟨1, .goto "L"⟩]⟩] ∧
        ∀ place, outcome'.disk.ChangedAt smallDisk place → place = ["a.vmir"]) ∧
      outcome''.disk = smallDisk := by
  intro outcome outcome' outcome''
  let args : Args :=
    { input := ⟨"a.vm"⟩, noBootstrap := true, noAnnotate := true, emitIr := some ⟨"a.asm"⟩ }
  let args' : Args := { input := ⟨"a.vm"⟩, emitIr := some ⟨"a.vmir"⟩, output := some ⟨"b/a.asm"⟩ }
  let args'' : Args := { input := ⟨"a.vm"⟩, dump := true, emitIr := some ⟨"a.vmir"⟩ }
  have hargs : Args.parse ["--no-bootstrap", "--no-annotate", "--emit-ir=a.asm", "a.vm"] =
      .ok args := by
    decide +kernel
  have hargs' : Args.parse ["a.vm", "--emit-ir", "a.vmir", "-ob/a.asm"] = .ok args' := by
    decide +kernel
  have hargs'' : Args.parse ["--dump", "--emit-ir=a.vmir", "--", "a.vm"] = .ok args'' := by
    decide +kernel
  have hsize : smallDisk.root.size < 2 ^ 64 := by
    decide
  have hload : (loadUnits smallDisk false ⟨"a.vm"⟩).value = .ok [⟨"a", [⟨1, .goto "L"⟩]⟩] := by
    decide +kernel
  have hok : outcome.status = 0 := by
    decide +kernel
  have hfails : outcome'.status = 1 := by
    decide +kernel
  refine ⟨⟨hok, ?_⟩, ⟨hfails, ?_⟩, (runProgram_writes hargs'' hsize).2.1 (by decide)⟩
  · obtain ⟨us, hus, hassembly⟩ := (runProgram_writes hargs hsize).2.2.1 hok (by decide)
    obtain rfl : [⟨"a", [⟨1, .goto "L"⟩]⟩] = us := Except.ok.inj (hload.symm.trans hus)
    have hlines : (translate args.options [⟨"a", [⟨1, .goto "L"⟩]⟩]).value =
        .ok ["@a$L", "0;JMP"] := by
      decide +kernel
    have hbytes : ("\n".intercalate ["@a$L", "0;JMP"] ++ "\n").toUTF8.data.toList =
        [64, 97, 36, 76, 10, 48, 59, 74, 77, 80, 10] := by
      decide +kernel
    have houtput : args.outputPath smallDisk = ⟨"a.asm"⟩ := by
      decide +kernel
    have hplace : outcome.disk.locate ⟨"a.asm"⟩ = .ok ["a.asm"] := by
      decide +kernel
    rw [houtput] at hassembly
    obtain ⟨hread, hchanged⟩ := hasAssembly_spec hargs hlines hassembly
    refine ⟨hread.trans (congrArg _ hbytes), fun place hother => ?_⟩
    have hsame : outcome.disk.locate ⟨"a.asm"⟩ = .ok place := by
      rcases hchanged place hother with hsame | ⟨bundle, hbundle, hsame⟩
      · exact hsame
      · cases hbundle
        exact hsame
    exact Except.ok.inj (hsame.symm.trans hplace)
  · rcases (runProgram_writes hargs' hsize).2.2.2 hfails with hsame | ⟨us, hus, hbundle, hdecode⟩
    · have hread : outcome'.disk.read ⟨"a.vmir"⟩ ≠ smallDisk.read ⟨"a.vmir"⟩ := by
        decide +kernel
      exact absurd (congrArg (fun disk => disk.read ⟨"a.vmir"⟩) hsame) hread
    · obtain rfl : [⟨"a", [⟨1, .goto "L"⟩]⟩] = us := Except.ok.inj (hload.symm.trans hus)
      have hbytes : Bundle.encode [⟨"a", [⟨1, .goto "L"⟩]⟩] = [1, 1, 97, 1, 1, 13, 1, 76] := by
        decide +kernel
      have hplace : outcome'.disk.locate ⟨"a.vmir"⟩ = .ok ["a.vmir"] := by
        decide +kernel
      obtain ⟨hread, hchanged⟩ := hasBundle_spec hargs' rfl hbundle
      rw [hbytes] at hread hdecode
      exact ⟨hread, hdecode, fun place hother =>
        Except.ok.inj ((hchanged place hother).symm.trans hplace)⟩

end HackVm
